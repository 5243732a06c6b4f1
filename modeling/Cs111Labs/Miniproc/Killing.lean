import Cs111Labs.Miniproc.Waits

/-!
# Killed processes of MiniprocOS

An empty descriptor is filled again only where a process is created, and the
end of a process changes no other than the one that waits for it.
-/

namespace Cs111Labs.Miniproc.System

open Foundation

variable {s s₁ s' : System} {trap : Trap}

/-- A step revives no descriptor, and where it ends a process it changes, apart
from this one and the caller, only a process in its own `sys_wait` for it. -/
structure StaysDead (trap : Trap) (s s' : System) : Prop where
  created : ∀ i, (s.kernel.procArray i).state = .empty →
    (s'.kernel.procArray i).state ≠ .empty →
    trap.registers.intno.toNat = 49 ∨ trap.registers.intno.toNat = 53
  touched : ∀ q, (s.save trap).ended = some q → ∀ i, i ≠ q → i ≠ s.kernel.current →
    (s'.kernel.procArray i).state ≠ (s.kernel.procArray i).state ∨
      (s'.kernel.procArray i).registers ≠ (s.kernel.procArray i).registers →
    (s.kernel.procArray i).state = .blocked ∧
      (s.lives i).call = some ⟨q, some (s.life q)⟩

theorem Effect.touches (heffect : Effect s s₁) (h : Waits s) (hspared : Spared s)
    {q i : Nat} (hended : s.ended = some q) (hiq : i ≠ q) (hcur : i ≠ s.kernel.current)
    (hchanged : s₁.kernel.procArray i ≠ s.kernel.procArray i) :
    Awaits s ⟨i, (s.lives i).born⟩ q := by
  cases heffect with
  | reply value hcurrent hproc => simp [hproc, hcur] at hchanged
  | create p hintno hp hdead hk =>
      rcases hintno with hintno | hintno <;> simp [ended, hintno] at hended
  | exitAlone hintno hwaiting hcurrent hproc => simp [hproc, hcur] at hchanged
  | exitAwaited w hintno hpos hwaiting hne hcurrent hproc =>
      have hq : q = s.kernel.current := by simpa [ended, hintno, eq_comm] using hended
      by_cases hiw : i = w
      · rw [hiw]
        exact h.awaits hspared hended hpos (hq ▸ hwaiting)
      · simp [hproc, hcur, hiw] at hchanged
  | waitError hintno hcurrent hproc => simp [ended, hintno] at hended
  | collect p hintno htarget hne hzombie hcurrent hproc => simp [ended, hintno] at hended
  | block p hintno htarget hne hlive hcurrent hproc => simp [ended, hintno] at hended
  | killAlone p hintno hfound htarget hne hlive hwaiting hcurrent hproc =>
      have hq : q = p := by simpa [ended, hintno, hfound, htarget, eq_comm] using hended
      simp [hproc, hcur, hq ▸ hiq] at hchanged
  | killAwaited p w hintno hfound htarget hne hlive hpos hwaiting hother hcurrent hproc =>
      have hq : q = p := by simpa [ended, hintno, hfound, htarget, eq_comm] using hended
      by_cases hiw : i = w
      · rw [hiw]
        exact h.awaits hspared hended hpos (hq ▸ hwaiting)
      · simp [hproc, hcur, hq ▸ hiq, hiw] at hchanged

/-- While no process ends after its last waiter was killed, killed processes stay dead. -/
theorem staysDead {entry : BitVec 32} {memory : Memory}
    (hrun : Reaches System.step (fun trap s => Spared (s.save trap)) (.start entry memory) s)
    (hspared : Spared (s.save trap)) (hstep : s.step trap = some s') :
    StaysDead trap s s' := by
  have hinv := Inv.of_reaches hrun
  have hruns := hinv.running.save trap
  have hwaits := hinv.waits.save trap
  obtain ⟨s₁, next, heffect, -, -, rfl⟩ := step_effect hinv.wf hinv.running hstep
  constructor
  · intro i hempty hfilled
    rw [resume_kernel] at hfilled
    have hfills := heffect.revives hruns hwaits hspared ((save_state trap i).trans hempty)
      hfilled
    rw [save_cur] at hfills
    exact hfills.1
  · intro q hended i hiq hcur hchanged
    simp only [resume_kernel, Kernel.run] at hchanged
    have hsame : (s.save trap).kernel.procArray i = s.kernel.procArray i := by
      rw [save_procArray, if_neg hcur]
    have hne : s₁.kernel.procArray i ≠ (s.save trap).kernel.procArray i := by
      rw [hsame]
      rintro heq
      simp [heq] at hchanged
    have hawaits := heffect.touches hwaits hspared hended hiq hcur hne
    exact ⟨(save_state trap i).symm.trans hawaits.state, hawaits.call⟩

theorem staysDead_exit :
    ∃ s s', (s.kernel.procArray 1).state = .blocked ∧ s.step (callWith 51 7) = some s' ∧
      StaysDead (callWith 51 7) s s' := by
  have hrun : ∃ s s', Reaches System.step (fun trap s => Spared (s.save trap))
      (.start 0 fun _ => 0) s ∧ (s.kernel.procArray 1).state = .blocked ∧
      s.killed = [] ∧ s.step (callWith 51 7) = some s' :=
    ⟨_, _, (Reaches.start.next (callWith 49 0) (fun _ _ _ _ => List.not_mem_nil) rfl).next
      (callWith 52 2) (fun _ _ _ _ => List.not_mem_nil) rfl, rfl, rfl, rfl⟩
  obtain ⟨s, s', hreaches, hblocked, hkilled, hstep⟩ := hrun
  exact ⟨s, s', hblocked, hstep, staysDead hreaches (.of_none hkilled) hstep⟩

/-- Process 1 creates process 2 and waits for it, and process 2 kills it. -/
def waiterKilled : List Trap :=
  [callWith 49 0, callWith 52 2, callWith 54 1]

theorem waiterKilled_revived :
    ∃ s s', runEvents System.step waiterKilled (.start 0 fun _ => 0) = some s ∧
      s.step (callWith 51 7) = some s' ∧ (s.kernel.procArray 1).state = .empty ∧
      (s'.kernel.procArray 1).state = .runnable ∧ s'.kernel.current = 1 ∧
      ¬ StaysDead (callWith 51 7) s s' := by
  refine ⟨_, _, rfl, rfl, rfl, rfl, rfl, ?_⟩
  intro h
  have hcreated := h.created 1 rfl nofun
  revert hcreated
  decide

end Cs111Labs.Miniproc.System
