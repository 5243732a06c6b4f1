import Cs111Labs.Miniproc.Waits

/-!
# Creating processes in MiniprocOS

`sys_fork` and `sys_newthread` look for an empty descriptor in loops of their own.
Only the first one sets `p_waiting`, and only the second one says that there was
no descriptor left.
-/

namespace Cs111Labs.Miniproc

open Foundation

/-- The descriptor that the kernel may use for a new process. -/
structure LowestEmpty (k : Kernel) (p : Nat) : Prop where
  range : 0 < p ∧ p < nprocs
  empty : (k.procArray p).state = .empty
  lowest : ∀ q, 0 < q → q < p → (k.procArray q).state ≠ .empty

/-- The call creates a process, or it fails and says so to the caller. -/
inductive CreatesOrFails (k k' : Kernel) : Prop
  | created (p : Nat) (hp : LowestEmpty k p) (hpid : (k'.procArray p).pid = p)
      (hstate : (k'.procArray p).state = .runnable)
      (hwaiting : ¬ 0 < (k'.procArray p).waiting)
      (hcaller : k'.procArray k.current = k.cur.setEax (BitVec.ofNat 32 p))
      (hother : ∀ i, i ≠ k.current → i ≠ p → k'.procArray i = k.procArray i)
  | failed (hfull : ∀ p, 0 < p → p < nprocs → (k.procArray p).state ≠ .empty)
      (hcaller : k'.procArray k.current = k.cur.setEax (-1))
      (hother : ∀ i, i ≠ k.current → k'.procArray i = k.procArray i)

variable {k k' : Kernel} {p : Nat}

theorem lowestEmpty_of_firstEmpty (h : k.firstEmpty = some p) : LowestEmpty k p := by
  obtain ⟨hpos, hlt, hempty⟩ := Kernel.firstEmpty_spec h
  obtain ⟨-, -, hlowest⟩ := List.find?_range'_eq_some.mp h
  exact ⟨⟨hpos, hlt⟩, hempty, fun q hq hqp => by simpa using hlowest q hq hqp⟩

theorem full_of_firstEmpty (h : k.firstEmpty = none) (hpos : 0 < p) (hlt : p < nprocs) :
    (k.procArray p).state ≠ .empty := by
  have hnone := List.find?_range'_eq_none.mp h p hpos (by unfold nprocs at *; omega)
  simpa using hnone

theorem Creates.createsOrFails (h : Creates k k' p) (hp : LowestEmpty k p)
    (hwaiting : ¬ 0 < (k.procArray p).waiting) : CreatesOrFails k k' := by
  refine .created p hp h.pid h.state ?_ ?_ h.other
  · rcases h.waiting with heq | heq
    · rwa [heq]
    · rw [heq]
      decide
  · have hcaller := h.caller
    rwa [Kernel.cur, h.current] at hcaller

/-- Which process runs next does not matter. -/
theorem CreatesOrFails.congr {k'' : Kernel} (h : CreatesOrFails k k')
    (hproc : k''.procArray = k'.procArray) : CreatesOrFails k k'' := by
  cases h with
  | created p hp hpid hstate hwaiting hcaller hother =>
      exact .created p hp (by rwa [hproc]) (by rwa [hproc]) (by rwa [hproc]) (by rwa [hproc])
        (by rwa [hproc])
  | failed hfull hcaller hother => exact .failed hfull (by rwa [hproc]) (by rwa [hproc])

/-- A full table: only the answer in the return register counts. -/
theorem createsOrFails_full_iff {value : BitVec 32}
    (hfull : ∀ p, 0 < p → p < nprocs → (k.procArray p).state ≠ .empty)
    (hproc : ∀ i, k'.procArray i = if i = k.current then k.cur.setEax value
      else k.procArray i) : CreatesOrFails k k' ↔ value = -1 := by
  have hcaller : k'.procArray k.current = k.cur.setEax value := by rw [hproc, if_pos rfl]
  constructor
  · intro h
    cases h with
    | created p hp hpid hstate hwaiting hcaller hother =>
        exact absurd hp.empty (hfull p hp.range.1 hp.range.2)
    | failed _ hfailed _ =>
        rw [hcaller] at hfailed
        simpa using congrArg (fun q : Process => q.registers.eax) hfailed
  · rintro rfl
    exact .failed hfull hcaller fun i hi => by rw [hproc, if_neg hi]

namespace System

variable {s s₁ s' : System} {trap : Trap}

/-! ## Descriptors without a process -/

/-- Nobody is recorded as waiting where no process runs any more. -/
def Unawaited (s : System) : Prop :=
  ∀ q, (s.kernel.procArray q).state = .empty ∨ (s.kernel.procArray q).state = .zombie →
    ¬ 0 < (s.kernel.procArray q).waiting

theorem Unawaited.save (h : Unawaited s) (trap : Trap) : Unawaited (s.save trap) := by
  intro q hq
  rw [save_state] at hq
  rw [save_waiting]
  exact h q hq

theorem Effect.unawaited (heffect : Effect s s₁) (hrun : Running s) (h : Unawaited s) :
    Unawaited s₁ := by
  have hstate : (s.kernel.procArray s.kernel.current).state = .runnable := hrun.state
  intro q hq
  cases heffect with
  | reply value hcurrent hproc =>
      have hold := h q
      simp only [hproc] at hq ⊢
      split_ifs at hq ⊢ with hi
      · simp [Kernel.cur, hstate] at hq
      · exact hold hq
  | @create k p hintno hp hempty hk =>
      have hne : q ≠ p := by
        rintro rfl
        simp [hk.state] at hq
      obtain ⟨value, hsame⟩ := hk.same hne
      rw [hsame] at hq ⊢
      exact h q hq
  | exitAlone hintno hwaiting hcurrent hproc =>
      have hold := h q
      simp only [hproc] at hq ⊢
      split_ifs at hq ⊢ with hi
      · exact hwaiting
      · exact hold hq
  | exitAwaited w hintno hpos hwaiting hne hcurrent hproc =>
      have hold := h q
      simp only [hproc] at hq ⊢
      split_ifs at hq ⊢ with hi hw
      · simp
      · simp at hq
      · exact hold hq
  | waitError hintno hcurrent hproc =>
      have hold := h q
      simp only [hproc] at hq ⊢
      split_ifs at hq ⊢ with hi
      · simp [Kernel.cur, hstate] at hq
      · exact hold hq
  | collect p hintno htarget hne hzombie hcurrent hproc =>
      have hold := h q
      simp only [hproc] at hq ⊢
      split_ifs at hq ⊢ with hi hp
      · simp at hq
      · exact hold (.inr (hp ▸ hzombie))
      · exact hold hq
  | block p hintno htarget hne hlive hcurrent hproc =>
      have hold := h q
      simp only [hproc] at hq ⊢
      split_ifs at hq ⊢ with hi hp
      · simp at hq
      · subst hp
        rcases hlive with hlive | hlive <;> simp [hlive] at hq
      · exact hold hq
  | killAlone p hintno hfound htarget hne hlive hwaiting hcurrent hproc =>
      have hold := h q
      simp only [hproc] at hq ⊢
      split_ifs at hq ⊢ with hi hp
      · simp [Kernel.cur, hstate] at hq
      · exact hp ▸ hwaiting
      · exact hold hq
  | killAwaited p w hintno hfound htarget hne hlive hpos hwaiting hother hcurrent hproc =>
      have hold := h q
      simp only [hproc] at hq ⊢
      split_ifs at hq ⊢ with hi hp hw
      · simp [Kernel.cur, hstate] at hq
      · simp
      · simp at hq
      · exact hold hq

theorem unawaited_of_reaches {entry : BitVec 32} {memory : Memory}
    (h : Reaches System.step (fun _ _ => True) (.start entry memory) s) :
    Running s ∧ Unawaited s := by
  refine (invariant_of_effect Unawaited ?_ ?_ h).2
  · intro q _
    simp only [System.start, Miniproc.start]
    split_ifs <;> simp
  · intro trap s s₁ next _ hrun hinv heffect q hq
    rw [resume_kernel] at hq ⊢
    exact heffect.unawaited (hrun.save trap) (hinv.save trap) q hq

/-! ## The two calls -/

theorem step_fork (hintno : trap.registers.intno.toNat = 49) :
    ∃ s', s.step trap = some s' ∧ s'.kernel = sysFork (s.save trap).kernel := by
  have hinterrupt : interrupt trap.registers { s.kernel with memory := trap.memory } =
      some (sysFork (s.save trap).kernel) := by
    unfold interrupt
    simp only [hintno]
    rfl
  rw [step, hinterrupt]
  exact ⟨_, rfl, resume_kernel⟩

/-- The caller can be run, so `schedule()` comes to an end. -/
theorem step_newthread (hwf : Wf s) (hrun : Running s)
    (hintno : trap.registers.intno.toNat = 53) :
    ∃ s', s.step trap = some s' ∧
      s'.kernel.procArray = (sysNewthread (s.save trap).kernel).procArray := by
  set k := (s.save trap).kernel with hk
  have hstate : (k.procArray k.current).state = .runnable := (hrun.save trap).state
  have hlt : k.current < nprocs :=
    ((hwf.save trap).slot k.current (by rw [← hk, hstate]; nofun)).2
  have hcaller : ((sysNewthread k).procArray k.current).state = .runnable := by
    cases hempty : k.firstEmpty with
    | none => rwa [sysNewthread_full hempty]
    | some p =>
        have hcreates := sysNewthread_creates hempty (firstEmpty_ne (hrun.save trap) hempty)
        have hcur := hcreates.caller
        rw [Kernel.cur, hcreates.current] at hcur
        rw [hcur]
        exact hstate
  obtain ⟨k', hk'⟩ := exists_schedule hlt hcaller
  obtain ⟨next, -, -, rfl⟩ := schedule_eq_some hk'
  have hinterrupt : interrupt trap.registers { s.kernel with memory := trap.memory } =
      some ((sysNewthread k).run next) := by
    unfold interrupt
    simp only [hintno]
    exact hk'
  rw [step, hinterrupt]
  refine ⟨_, rfl, ?_⟩
  dsimp only
  rw [resume_kernel]
  rfl

/-- A process is created, or the caller is told that there was no room for it. -/
theorem createsOrFails_iff {entry : BitVec 32} {memory : Memory}
    (hreaches : Reaches System.step (fun _ _ => True) (.start entry memory) s)
    (hcall : trap.registers.intno.toNat = 49 ∨ trap.registers.intno.toNat = 53) :
    (∃ s', s.step trap = some s' ∧ CreatesOrFails (s.save trap).kernel s'.kernel) ↔
      trap.registers.intno.toNat = 49 ∨
        (∃ p, 0 < p ∧ p < nprocs ∧ (s.kernel.procArray p).state = .empty) ∨
        trap.registers.eax = -1 := by
  obtain ⟨hrun, hunawaited⟩ := unawaited_of_reaches hreaches
  have hruns := hrun.save trap
  have hidle := hunawaited.save trap
  set k := (s.save trap).kernel with hk
  have hfound : ∀ {p k'}, k.firstEmpty = some p → Creates k k' p → CreatesOrFails k k' :=
    fun hp hcreates => hcreates.createsOrFails (lowestEmpty_of_firstEmpty hp)
      (hidle _ (.inl (Kernel.firstEmpty_spec hp).2.2))
  rcases hcall with hintno | hintno
  · obtain ⟨s', hstep, hkernel⟩ := step_fork (s := s) hintno
    refine iff_of_true ⟨s', hstep, ?_⟩ (.inl hintno)
    rw [hkernel]
    cases hempty : k.firstEmpty with
    | none =>
        exact (createsOrFails_full_iff (fun _ => full_of_firstEmpty hempty)
          (sysFork_full hempty)).mpr rfl
    | some p => exact hfound hempty (sysFork_creates hempty (firstEmpty_ne hruns hempty))
  · obtain ⟨s', hstep, hproc⟩ := step_newthread (wf_of_reaches hreaches) hrun hintno
    cases hempty : k.firstEmpty with
    | none =>
        rw [← hk, sysNewthread_full hempty] at hproc
        have heax : k.cur.registers.eax = trap.registers.eax := by rw [hk, save_cur]
        have hsame : ∀ i, s'.kernel.procArray i =
            if i = k.current then k.cur.setEax trap.registers.eax else k.procArray i := by
          intro i
          rw [hproc, ← heax]
          split_ifs with hi
          · rw [hi, setEax_self]
            rfl
          · rfl
        have hfull : ∀ p, 0 < p → p < nprocs → (k.procArray p).state ≠ .empty :=
          fun _ => full_of_firstEmpty hempty
        have hanswer := createsOrFails_full_iff hfull hsame
        constructor
        · rintro ⟨s'', hstep', h⟩
          obtain rfl := Option.some.inj (hstep.symm.trans hstep')
          exact .inr (.inr (hanswer.mp h))
        · rintro (hfork | ⟨p, hpos, hlt, hstate⟩ | hminus)
          · omega
          · exact absurd ((save_state trap p).trans hstate) (hfull p hpos hlt)
          · exact ⟨s', hstep, hanswer.mpr hminus⟩
    | some p =>
        obtain ⟨hpos, hlt, hstate⟩ := Kernel.firstEmpty_spec hempty
        refine iff_of_true ⟨s', hstep, ?_⟩ (.inr (.inl ⟨p, hpos, hlt, ?_⟩))
        · exact (hfound hempty (sysNewthread_creates hempty
            (firstEmpty_ne hruns hempty))).congr hproc
        · rwa [hk, save_state] at hstate

theorem createsOrFails_iff_thread :
    ∃ s', System.step (callWith 53 0x200000) (.start 0 fun _ => 0) = some s' ∧
      CreatesOrFails (System.save (callWith 53 0x200000) (.start 0 fun _ => 0)).kernel
        s'.kernel :=
  (createsOrFails_iff .start (.inr rfl)).mpr (.inr (.inl ⟨2, by decide, by decide, rfl⟩))

/-- Process 1 creates processes until the table is full. -/
def fillTable : List Trap := List.replicate 14 (callWith 49 0)

/-- The next thread is not created, and its entry point is returned. -/
theorem fillTable_not_createsOrFails :
    ∃ s s', runEvents System.step fillTable (.start 0 fun _ => 0) = some s ∧
      s.step (callWith 53 0x200000) = some s' ∧
      (s'.kernel.procArray 1).registers.eax = 0x200000 ∧
      ¬ CreatesOrFails (s.save (callWith 53 0x200000)).kernel s'.kernel := by
  have hrun : (runEvents System.step fillTable (.start 0 fun _ => 0)).any (fun s =>
      (s.step (callWith 53 0x200000)).any fun s' =>
        s.kernel.current = 1 ∧ (s'.kernel.procArray 1).registers.eax = 0x200000 ∧
          ∀ p < nprocs, 0 < p → (s.kernel.procArray p).state ≠ .empty) = true := by
    decide +kernel
  obtain ⟨s, hevents, hany⟩ := (Option.any_eq_true ..).mp hrun
  obtain ⟨s', hstep, hfacts⟩ := (Option.any_eq_true ..).mp hany
  obtain ⟨hcurrent, heax, hfull⟩ := of_decide_eq_true hfacts
  refine ⟨s, s', hevents, hstep, heax, ?_⟩
  intro h
  cases h with
  | created p hp =>
      exact hfull p hp.range.2 hp.range.1 ((save_state _ p).symm.trans hp.empty)
  | failed _ hcaller =>
      have hminus := congrArg (fun q : Process => q.registers.eax) hcaller
      rw [show (s.save (callWith 53 0x200000)).kernel.current = 1 from hcurrent] at hminus
      rw [Process.setEax_eax, heax] at hminus
      revert hminus
      decide

end System

end Cs111Labs.Miniproc
