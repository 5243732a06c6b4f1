import Cs111Labs.Foundation.Dispatches
import Cs111Labs.Miniproc.Waits

/-!
# Round robin in MiniprocOS

`schedule()` looks for the next runnable process from the current one on.  The
distance from there to a process that waits gets smaller with every dispatch of
another process, whatever the calls between them do.
-/

namespace Cs111Labs.Miniproc.System

open Foundation

variable {s s' : System} {trap : Trap} {entry : BitVec 32} {memory : Memory} {i : Nat}

/-- The calls that end in `schedule()`. -/
def Schedules (trap : Trap) : Prop :=
  50 ≤ trap.registers.intno.toNat ∧ trap.registers.intno.toNat ≤ 54

instance : DecidablePred Schedules := fun _ => inferInstanceAs (Decidable (_ ∧ _))

theorem sysNewthread_current (k : Kernel) : (sysNewthread k).current = k.current := by
  unfold sysNewthread
  split <;> rfl

/-- `schedule()` is called with the same current process. -/
theorem interrupt_schedule {registers : Registers} {k k' : Kernel}
    (hschedules : 50 ≤ registers.intno.toNat ∧ registers.intno.toNat ≤ 54)
    (hk' : interrupt registers k = some k') :
    ∃ called, called.current = k.current ∧ schedule called = some k' := by
  unfold interrupt at hk'
  dsimp only at hk'
  split at hk'
  · omega
  · omega
  · exact ⟨_, by rfl, hk'⟩
  · exact ⟨_, by exact sysExit_current, hk'⟩
  · exact ⟨_, by exact sysWait_current, hk'⟩
  · exact ⟨_, by exact sysNewthread_current _, hk'⟩
  · exact ⟨_, by exact sysKill_current, hk'⟩
  · cases hk'

/-- The other calls go on with the current process. -/
theorem interrupt_current {registers : Registers} {k k' : Kernel}
    (hschedules : ¬ (50 ≤ registers.intno.toNat ∧ registers.intno.toNat ≤ 54))
    (hk' : interrupt registers k = some k') : k'.current = k.current := by
  unfold interrupt at hk'
  dsimp only at hk'
  split at hk'
  · rw [← Option.some.inj hk']
    rfl
  · rw [← Option.some.inj hk']
    exact sysFork_current
  · omega
  · omega
  · omega
  · omega
  · omega
  · cases hk'

theorem step_schedule (hschedules : Schedules trap) (hstep : s.step trap = some s') :
    ∃ k, k.current = s.kernel.current ∧ schedule k = some s'.kernel := by
  obtain ⟨k', hk', rfl⟩ := Option.map_eq_some_iff.mp hstep
  obtain ⟨k, hcurrent, hschedule⟩ := interrupt_schedule hschedules hk'
  refine ⟨k, hcurrent, hschedule.trans ?_⟩
  dsimp only
  rw [resume_kernel]

theorem step_current (hschedules : ¬ Schedules trap) (hstep : s.step trap = some s') :
    s'.kernel.current = s.kernel.current := by
  obtain ⟨k', hk', rfl⟩ := Option.map_eq_some_iff.mp hstep
  have hsame := interrupt_current hschedules hk'
  dsimp only
  rw [resume_kernel]
  exact hsame

/-- The first runnable process after the current one is dispatched. -/
theorem dispatch_first (hwf : Wf s') (hschedules : Schedules trap)
    (hstep : s.step trap = some s') :
    ∃ d < nprocs, s'.kernel.current = (s.kernel.current + 1 + d) % nprocs ∧
      s'.kernel.cur.state = .runnable ∧
      ∀ e < d, (s'.kernel.procArray ((s.kernel.current + 1 + e) % nprocs)).state ≠ .runnable := by
  obtain ⟨k, hcurrent, hschedule⟩ := step_schedule hschedules hstep
  rcases scheduleLoop_cases nprocs k.cur.pid k with ⟨hnone, -⟩ | ⟨d, hd, hsome, hfound, hfirst⟩
  · rw [schedule, hnone] at hschedule
    cases hschedule
  · rw [schedule, hsome] at hschedule
    have hkernel := Option.some.inj hschedule
    have hpid : k.cur.pid = s.kernel.current := by
      have hslot := hwf.pid k.current
      rw [← hkernel] at hslot
      exact hslot.trans hcurrent
    rw [hpid] at hkernel hfound hfirst
    rw [← hkernel]
    exact ⟨d, hd, rfl, hfound, hfirst⟩

/-- The distance to a process, which is longest from itself. -/
def distance (i : Nat) (s : System) : Nat :=
  (i + (nprocs - 1) + (nprocs - s.kernel.current)) % nprocs

theorem distance_lt (hi : i < nprocs) (hcurrent : s.kernel.current < nprocs)
    (hne : s.kernel.current ≠ i) : distance i s < nprocs - 1 := by
  unfold distance nprocs at *
  omega

/-- A dispatch that passes over a runnable process comes closer to it. -/
theorem distance_lower {d : Nat} (hi : i < nprocs) (hold : s.kernel.current < nprocs)
    (hd : d < nprocs) (hcurrent : s'.kernel.current = (s.kernel.current + 1 + d) % nprocs)
    (hrunnable : (s'.kernel.procArray i).state = .runnable)
    (hfirst : ∀ e < d,
      (s'.kernel.procArray ((s.kernel.current + 1 + e) % nprocs)).state ≠ .runnable)
    (hne : s'.kernel.current ≠ i) : distance i s' < distance i s := by
  have hindex : (s.kernel.current + 1 + distance i s) % nprocs = i := by
    unfold distance nprocs at *
    omega
  have hlt : distance i s < nprocs := Nat.mod_lt _ (by decide)
  have hbefore : d ≤ distance i s := by
    by_contra hlate
    exact hfirst (distance i s) (by omega) (hindex.symm ▸ hrunnable)
  have hnot : d ≠ distance i s := by
    rintro rfl
    exact hne (hcurrent.trans hindex)
  unfold distance nprocs at *
  omega

/-- Every dispatched process is runnable, and no runnable process is passed over
in `NPROCS` dispatches. -/
theorem boundedBypass {seen : List System}
    (h : Dispatched System.step (fun _ _ => True) Schedules (.start entry memory) seen s) :
    (∀ k ∈ seen, k.kernel.cur.state = .runnable ∧ 1 ≤ k.kernel.cur.pid) ∧
      ∀ window, window <:+: seen → nprocs ≤ window.length → ∀ i,
        (∀ k ∈ window, (k.kernel.procArray i).state = .runnable) →
        ∃ k ∈ window, k.kernel.cur.pid = i := by
  have hmem : ∀ k ∈ seen, Wf k ∧ k.kernel.cur.state = .runnable := by
    refine h.forall_mem fun trap s s' hreaches _ hschedules hstep => ?_
    have hwf := wf_of_reaches (hreaches.next trap trivial hstep)
    obtain ⟨d, -, -, hrunnable, -⟩ := dispatch_first hwf hschedules hstep
    exact ⟨hwf, hrunnable⟩
  have hslot : ∀ k ∈ seen, k.kernel.cur.pid = k.kernel.current ∧ 0 < k.kernel.current ∧
      k.kernel.current < nprocs := by
    intro k hk
    obtain ⟨hwf, hrunnable⟩ := hmem k hk
    exact ⟨hwf.pid _, hwf.slot _ (by rw [← Kernel.cur, hrunnable]; decide)⟩
  constructor
  · intro k hk
    rw [(hslot k hk).1]
    exact ⟨(hmem k hk).2, (hslot k hk).2.1⟩
  · intro window hwindow hlength i hstays
    by_contra hnever
    push Not at hnever
    have hseen : ∀ k ∈ window, k ∈ seen := fun k hk => hwindow.subset hk
    have hne : ∀ k ∈ window, k.kernel.current ≠ i := fun k hk =>
      (hslot k (hseen k hk)).1 ▸ hnever k hk
    obtain ⟨hchain, -⟩ := h.isChain (fun k s => s.kernel.current = k.kernel.current)
      (fun _ _ => rfl) fun trap k s s' _ hlink _ hschedules hstep =>
        (step_current hschedules hstep).trans hlink
    have hi : i < nprocs := by
      cases window with
      | nil => simp [nprocs] at hlength
      | cons k window =>
          have hrunnable := hstays k (by simp)
          exact ((hmem k (hseen k (by simp))).1.slot i (by rw [hrunnable]; decide)).2
    have hlinked := List.IsChain.infix hchain hwindow
    have hbound := length_le_of_rank (distance i) (nprocs - 1) hlinked ?_ fun k hk =>
        distance_lt hi (hslot k (hseen k hk)).2.2 (hne k hk)
    · unfold nprocs at hbound hlength
      omega
    · rintro newer hnewer older holder ⟨s, trap, hreaches, hlink, -, hschedules, hstep⟩
      obtain ⟨d, hd, hcurrent, -, hfirst⟩ :=
        dispatch_first (hmem newer (hseen newer hnewer)).1 hschedules hstep
      rw [hlink] at hcurrent hfirst
      exact distance_lower hi (hslot older (hseen older holder)).2.2 hd hcurrent
        (hstays newer hnewer) hfirst (hne newer hnewer)

/-- Process 1 creates process 2, and then they yield. -/
def yields : List Trap := callWith 49 0 :: List.replicate 16 (callWith 50 0)

theorem boundedBypass_yields :
    ∃ seen s, Dispatched.runDispatches System.step Schedules yields [] (.start 0 fun _ => 0) =
      some (seen, s) ∧ ∃ k ∈ seen, k.kernel.cur.pid = 2 := by
  have hrun : (Dispatched.runDispatches System.step Schedules yields []
      (.start 0 fun _ => 0)).any (fun run => nprocs ≤ run.1.length ∧
        ∀ k ∈ run.1, (k.kernel.procArray 2).state = .runnable) = true := by
    decide +kernel
  obtain ⟨⟨seen, s⟩, hevents, hfacts⟩ := (Option.any_eq_true ..).mp hrun
  obtain ⟨hlength, hstays⟩ := of_decide_eq_true hfacts
  exact ⟨seen, s, hevents, (boundedBypass (.of_runDispatches yields (by simp) .start hevents)).2
    seen (List.infix_refl seen) hlength 2 hstays⟩

end Cs111Labs.Miniproc.System
