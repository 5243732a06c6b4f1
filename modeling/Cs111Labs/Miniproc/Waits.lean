import Cs111Labs.Miniproc.Lives

/-!
# The waiters of MiniprocOS

A descriptor remembers one waiter by its number.  While no process ends after
its last waiter was killed, the number stands for a process that is blocked in
its own `sys_wait`.
-/

namespace Cs111Labs.Miniproc.System

open Foundation

variable {s s₁ : System}

/-! ## The descriptors -/

theorem Wf.of_proc (h : Wf s) (hpid : ∀ i, (s₁.kernel.procArray i).pid = i)
    (hslot : ∀ i, (s₁.kernel.procArray i).state ≠ .empty →
      (s.kernel.procArray i).state ≠ .empty ∨ 0 < i ∧ i < nprocs)
    (hwaiting : ∀ q, 0 < (s₁.kernel.procArray q).waiting →
      (s₁.kernel.procArray q).waiting = (s.kernel.procArray q).waiting ∨
        (s₁.kernel.procArray q).waiting ≠ q ∧ (s₁.kernel.procArray q).waiting < nprocs) :
    Wf s₁ where
  pid := hpid
  slot i hi := (hslot i hi).elim (h.slot i) id
  waiting q hq := by
    rcases hwaiting q hq with heq | hnew
    · rw [heq] at hq ⊢
      exact h.waiting q hq
    · exact hnew

theorem Effect.wf (heffect : Effect s s₁) (h : Wf s) (hrun : Running s) : Wf s₁ := by
  have hcur : s.kernel.cur.pid = s.kernel.current := h.pid _
  have hstate : (s.kernel.procArray s.kernel.current).state ≠ .empty := by
    have hrunnable := hrun.state
    rw [Kernel.cur] at hrunnable
    rw [hrunnable]
    decide
  cases heffect with
  | reply value hcurrent hproc =>
      apply h.of_proc <;> intro i <;> simp only [hproc] <;> split_ifs with hi <;>
        simp_all [h.pid, Kernel.cur]
  | @create k p hintno hp hempty hk =>
      have hsame : ∀ i, i ≠ p → (k.procArray i).pid = (s.kernel.procArray i).pid ∧
          (k.procArray i).state = (s.kernel.procArray i).state ∧
          (k.procArray i).waiting = (s.kernel.procArray i).waiting := by
        intro i hi
        obtain ⟨value, heq⟩ := hk.same hi
        rw [heq]
        exact ⟨rfl, rfl, rfl⟩
      apply h.of_proc
      · intro i
        by_cases hi : i = p
        · rw [hi]
          exact hk.pid
        · exact (hsame i hi).1.trans (h.pid i)
      · intro i hlive
        by_cases hi : i = p
        · rw [hi]
          exact .inr hp
        · rw [← (hsame i hi).2.1]
          exact .inl hlive
      · intro q hq
        by_cases hi : q = p
        · rw [hi] at hq ⊢
          rcases hk.waiting with hold | hnone
          · exact .inl hold
          · change 0 < (k.procArray p).waiting at hq
            omega
        · exact .inl (hsame q hi).2.2
  | exitAlone hintno hwaiting hcurrent hproc =>
      apply h.of_proc <;> intro i <;> simp only [hproc] <;> split_ifs with hi <;>
        simp_all [h.pid, Kernel.cur]
  | exitAwaited w hintno hpos hwaiting hne hcurrent hproc =>
      have hw := h.waiting s.kernel.current
      rw [← Kernel.cur, hwaiting] at hw
      apply h.of_proc <;> intro i <;> simp only [hproc] <;> split_ifs with hi hiw <;>
        simp_all [h.pid, Kernel.cur]
  | waitError hintno hcurrent hproc =>
      apply h.of_proc <;> intro i <;> simp only [hproc] <;> split_ifs with hi <;>
        simp_all [h.pid, Kernel.cur]
  | collect p hintno htarget hne hzombie hcurrent hproc =>
      apply h.of_proc <;> intro i <;> simp only [hproc] <;> split_ifs with hi <;>
        simp_all [h.pid, Kernel.cur]
  | block p hintno htarget hne hlive hcurrent hproc =>
      have hslot := h.slot s.kernel.current hstate
      apply h.of_proc <;> intro i <;> simp only [hproc] <;> split_ifs with hi hip <;>
        simp_all [h.pid, Kernel.cur]
      omega
  | killAlone p hintno hfound htarget hne hlive hwaiting hcurrent hproc =>
      apply h.of_proc <;> intro i <;> simp only [hproc] <;> split_ifs with hi hip <;>
        simp_all [h.pid, Kernel.cur]
  | killAwaited p w hintno hfound htarget hne hlive hpos hwaiting hother hcurrent hproc =>
      have hw := h.waiting p
      rw [hwaiting] at hw
      apply h.of_proc <;> intro i <;> simp only [hproc] <;> split_ifs with hi hip hiw <;>
        simp_all [h.pid, Kernel.cur]

/-! ## The recorded waiters -/

/-- The process `w` is blocked in its own `sys_wait` for the process at `q`. -/
structure Awaits (s : System) (w : LifeId) (q : Nat) : Prop where
  life : s.life w.pid = w
  state : (s.kernel.procArray w.pid).state = .blocked
  call : (s.lives w.pid).call = some ⟨q, some (s.life q)⟩

theorem Awaits.congr {w : LifeId} {q : Nat} (h : Awaits s w q)
    (hstate : (s₁.kernel.procArray w.pid).state = (s.kernel.procArray w.pid).state)
    (hlife : s₁.life w.pid = s.life w.pid) (hq : s₁.life q = s.life q)
    (hcall : (s₁.lives w.pid).call = (s.lives w.pid).call) : Awaits s₁ w q where
  life := hlife.trans h.life
  state := hstate.trans h.state
  call := by rw [hcall, hq, h.call]

/-- A process waits for one process only. -/
theorem Awaits.target_eq {w w' : LifeId} {q q' : Nat} (h : Awaits s w q)
    (h' : Awaits s w' q') (hpid : w.pid = w'.pid) : q = q' := by
  have hcall := h.call
  rw [hpid, h'.call] at hcall
  simp only [Option.some.injEq, WaitCall.mk.injEq] at hcall
  omega

def Live (s : System) (q : Nat) : Prop :=
  (s.kernel.procArray q).state = .runnable ∨ (s.kernel.procArray q).state = .blocked

/-- Who is recorded as a waiter either waits or was killed. -/
def Waits (s : System) : Prop :=
  ∀ q, 0 < (s.kernel.procArray q).waiting → s.Live q ∧
    ∃ w, (s.lives q).waiter = some w ∧ (s.kernel.procArray q).waiting = w.pid ∧
      (w ∈ s.killed ∨ Awaits s w q)

/-- The process that the call ends. -/
def ended (s : System) : Option Nat :=
  match s.kernel.cur.registers.intno.toNat with
  | 51 => some s.kernel.current
  | 54 => if noSuchProcess s.kernel then none else some (target s.kernel).toNat
  | _ => none

/-- The last waiter of a process that ends was not killed. -/
def Spared (s : System) : Prop :=
  ∀ q w, s.ended = some q → (s.lives q).waiter = some w → w ∉ s.killed

theorem Spared.of_none (h : s.killed = []) : Spared s := fun _ _ _ _ => by
  rw [h]
  exact List.not_mem_nil

/-- With its last waiter alive, that process waits. -/
theorem Waits.awaits (h : Waits s) (hspared : Spared s) {q w : Nat} (hended : s.ended = some q)
    (hpos : 0 < w) (hwaiting : (s.kernel.procArray q).waiting = w) :
    Awaits s ⟨w, (s.lives w).born⟩ q := by
  obtain ⟨_, life, hlife, hpid, hwaits⟩ := h q (by omega)
  rcases hwaits with hkilled | hwaits
  · exact absurd hkilled (hspared q life hended hlife)
  · have hw : life = ⟨w, (s.lives w).born⟩ := by
      have heq : life.pid = w := by omega
      rw [← hwaits.life, System.life, heq]
    exact hw ▸ hwaits

theorem Awaits.ne_current {w : LifeId} {q : Nat} (h : Awaits s w q) (hrun : Running s) :
    w.pid ≠ s.kernel.current := by
  intro heq
  have hblocked := h.state
  have hstate := hrun.state
  rw [heq] at hblocked
  rw [Kernel.cur, hblocked] at hstate
  cases hstate

/-- The descriptor `q` and its waiter are as before. -/
structure Keeps (s s₁ : System) (q : Nat) : Prop where
  waiting : (s₁.kernel.procArray q).waiting = (s.kernel.procArray q).waiting
  live : s.Live q → s₁.Live q
  waiter : (s₁.lives q).waiter = (s.lives q).waiter
  awaits : ∀ w, Awaits s w q → w ∈ s₁.killed ∨ Awaits s₁ w q

theorem Waits.of_keeps {q : Nat} (hwaits : Waits s)
    (hq : 0 < (s₁.kernel.procArray q).waiting) (h : Keeps s s₁ q)
    (hkilled : ∀ w ∈ s.killed, w ∈ s₁.killed) : s₁.Live q ∧
      ∃ w, (s₁.lives q).waiter = some w ∧ (s₁.kernel.procArray q).waiting = w.pid ∧
        (w ∈ s₁.killed ∨ Awaits s₁ w q) := by
  rw [h.waiting] at hq
  obtain ⟨hlive, w, hwaiter, hpid, hw⟩ := hwaits q hq
  refine ⟨h.live hlive, w, h.waiter.trans hwaiter, h.waiting.trans hpid, ?_⟩
  rcases hw with hdead | hawaits
  · exact .inl (hkilled w hdead)
  · exact h.awaits w hawaits

/-- Nothing that matters for `q` changes but the states of other processes. -/
theorem Keeps.of_state {q : Nat} (hwaiting : (s₁.kernel.procArray q).waiting =
      (s.kernel.procArray q).waiting)
    (hlive : s.Live q → s₁.Live q) (hlives : s₁.lives = s.lives)
    (hstate : ∀ w, Awaits s w q → w ∈ s₁.killed ∨
      (s₁.kernel.procArray w.pid).state = (s.kernel.procArray w.pid).state) :
    Keeps s s₁ q where
  waiting := hwaiting
  live := hlive
  waiter := by rw [hlives]
  awaits w hw := by
    have hlife : ∀ pid, s₁.life pid = s.life pid := fun pid => by
      rw [System.life, System.life, hlives]
    exact (hstate w hw).imp_right fun hsame =>
      hw.congr hsame (hlife _) (hlife _) (by rw [hlives])

/-- Only the call of the current process changes. -/
theorem Keeps.setCall {k : Kernel} {q : Nat} {call : Option WaitCall} (hrun : Running s)
    (hwaiting : (k.procArray q).waiting = (s.kernel.procArray q).waiting)
    (hlive : s.Live q → (k.procArray q).state = (s.kernel.procArray q).state)
    (hstate : ∀ w, Awaits s w q →
      (k.procArray w.pid).state = (s.kernel.procArray w.pid).state) :
    Keeps s { s.setCall s.kernel.current call with kernel := k } q where
  waiting := hwaiting
  live h := by
    simpa only [Live, hlive h] using h
  waiter := setCall_waiter s s.kernel.current q call
  awaits w hw := by
    right
    apply hw.congr (hstate w hw)
    · exact congrArg (LifeId.mk w.pid) (setCall_born s s.kernel.current _ call)
    · exact congrArg (LifeId.mk q) (setCall_born s s.kernel.current _ call)
    · exact (setCall_call s _ _ call).trans (if_neg (hw.ne_current hrun))

theorem Effect.waits (heffect : Effect s s₁) (hrun : Running s) (h : Waits s)
    (hspared : Spared s) : Waits s₁ := by
  have hstate : s.kernel.cur.state = .runnable := hrun.state
  intro q hq
  cases heffect with
  | reply value hcurrent hproc =>
      refine h.of_keeps hq ?_ fun _ => id
      apply Keeps.of_state
      · simp only [hproc]
        split_ifs with hi <;> simp [hi, Kernel.cur]
      · intro hlive
        simp only [Live, hproc]
        split_ifs with hi
        · exact .inl hstate
        · exact hlive
      · rfl
      · intro w hw
        simp only [hproc, if_neg (hw.ne_current hrun)]
        exact .inr trivial
  | @create k p hintno hp hempty hk =>
      have hpq : q ≠ p := by
        rintro rfl
        have hdead : ¬ 0 < (s.kernel.procArray q).waiting := fun hpos => by
          have hlive := (h q hpos).1
          simp [Live, hempty] at hlive
        rcases hk.waiting with hsame | hnone
        · change 0 < (k.procArray q).waiting at hq
          rw [hsame] at hq
          exact hdead hq
        · change 0 < (k.procArray q).waiting at hq
          omega
      obtain ⟨value, hsame⟩ := hk.same hpq
      have hlife : ∀ i, i ≠ p →
          Function.update s.lives p { born := (s.lives p).born + 1 } i = s.lives i :=
        fun i hi => Function.update_of_ne hi ..
      refine h.of_keeps hq ⟨?_, ?_, ?_, ?_⟩ fun _ => id
      · rw [hsame]
        rfl
      · simp only [Live, hsame]
        exact id
      · exact congrArg Life.waiter (hlife q hpq)
      · intro w hw
        have hwp : w.pid ≠ p := by
          rintro rfl
          have hblocked := hw.state
          rw [hempty] at hblocked
          cases hblocked
        obtain ⟨value', hsame'⟩ := hk.same hwp
        right
        apply hw.congr
        · rw [hsame']
          rfl
        · exact congrArg (fun life => LifeId.mk w.pid life.born) (hlife _ hwp)
        · exact congrArg (fun life => LifeId.mk q life.born) (hlife _ hpq)
        · exact congrArg Life.call (hlife _ hwp)
  | exitAlone hintno hwaiting hcurrent hproc =>
      refine h.of_keeps hq ?_ fun _ => id
      have hqc : q ≠ s.kernel.current := by
        rintro rfl
        simp only [hproc, if_true] at hq
        exact hwaiting hq
      apply Keeps.of_state
      · simp only [hproc, if_neg hqc]
      · simp only [Live, hproc, if_neg hqc]
        exact id
      · rfl
      · intro w hw
        simp only [hproc, if_neg (hw.ne_current hrun)]
        exact .inr trivial
  | exitAwaited w hintno hpos hwaiting hne hcurrent hproc =>
      have hended : s.ended = some s.kernel.current := by simp [ended, hintno]
      have hwaiter := h.awaits hspared hended hpos hwaiting
      have hqc : q ≠ s.kernel.current := by
        rintro rfl
        simp [hproc] at hq
      refine h.of_keeps hq ?_ fun _ => id
      apply Keeps.of_state
      · simp only [hproc, if_neg hqc]
        split_ifs <;> simp
      · simp only [Live, hproc, if_neg hqc]
        split_ifs
        · exact fun _ => .inl rfl
        · exact id
      · rfl
      · intro v hv
        have hvw : v.pid ≠ w := fun heq => hqc (hv.target_eq hwaiter heq)
        simp only [hproc, if_neg (hv.ne_current hrun), if_neg hvw]
        exact .inr trivial
  | waitError hintno hcurrent hproc =>
      refine h.of_keeps hq ?_ fun _ => id
      apply Keeps.setCall hrun
      · simp only [hproc]
        split_ifs with hi <;> simp [hi, Kernel.cur]
      · intro _
        simp only [hproc]
        split_ifs with hi <;> simp [hi, Kernel.cur]
      · intro w hw
        simp only [hproc, if_neg (hw.ne_current hrun)]
  | collect p hintno htarget hne hzombie hcurrent hproc =>
      have hqp : q ≠ p := by
        rintro rfl
        simp only [hproc, if_neg hne, if_true] at hq
        have hlive := (h q hq).1
        simp [Live, hzombie] at hlive
      refine h.of_keeps hq ?_ fun _ => id
      apply Keeps.setCall hrun
      · simp only [hproc, if_neg hqp]
        split_ifs with hi <;> simp [hi, Kernel.cur]
      · intro _
        simp only [hproc, if_neg hqp]
        split_ifs with hi
        · rw [hi]
          exact hstate.symm
        · rfl
      · intro w hw
        have hwp : w.pid ≠ p := by
          rintro rfl
          have hblocked := hw.state
          rw [hzombie] at hblocked
          cases hblocked
        simp only [hproc, if_neg (hw.ne_current hrun), if_neg hwp]
  | @block k p hintno htarget hne hlive hcurrent hproc =>
      set call : WaitCall := ⟨p, some (s.life p)⟩
      have hborn : ∀ i, (((s.setCall s.kernel.current (some call)).setWaiter p
          (s.life s.kernel.current)).lives i).born = (s.lives i).born := by
        intro i
        rw [setWaiter_born, setCall_born]
      have hcall : ∀ i, (((s.setCall s.kernel.current (some call)).setWaiter p
          (s.life s.kernel.current)).lives i).call =
            if i = s.kernel.current then some call else (s.lives i).call := by
        intro i
        rw [setWaiter_call, setCall_call]
      have hwaiter : ∀ i, (((s.setCall s.kernel.current (some call)).setWaiter p
          (s.life s.kernel.current)).lives i).waiter =
            if i = p then some (s.life s.kernel.current) else (s.lives i).waiter := by
        intro i
        rw [setWaiter_waiter, setCall_waiter]
      by_cases hqp : q = p
      · subst hqp
        refine ⟨?_, s.life s.kernel.current, ?_, ?_, .inr ⟨?_, ?_, ?_⟩⟩
        · simpa only [Live, hproc, if_neg hne, if_true] using hlive
        · exact (hwaiter q).trans (if_pos rfl)
        · simp [hproc, if_neg hne, System.life]
        · exact congrArg (LifeId.mk s.kernel.current) (hborn _)
        · simp [hproc, System.life]
        · have hlife : LifeId.mk q (((s.setCall s.kernel.current (some call)).setWaiter q
              (s.life s.kernel.current)).lives q).born = s.life q :=
            congrArg (LifeId.mk q) (hborn q)
          exact ((hcall _).trans (if_pos rfl)).trans
            (congrArg (fun life => some (WaitCall.mk q (some life))) hlife.symm)
      · refine h.of_keeps hq ⟨?_, ?_, (hwaiter q).trans (if_neg hqp), ?_⟩ fun _ => id
        · simp only [hproc, if_neg hqp]
          split_ifs with hi <;> simp [hi, Kernel.cur]
        · simp only [Live, hproc, if_neg hqp]
          split_ifs with hi
          · exact fun _ => .inr rfl
          · exact id
        · intro w hw
          have hwc := hw.ne_current hrun
          right
          apply hw.congr
          · simp only [hproc, if_neg hwc]
            split_ifs <;> rfl
          · exact congrArg (LifeId.mk w.pid) (hborn _)
          · exact congrArg (LifeId.mk q) (hborn _)
          · exact (hcall _).trans (if_neg hwc)
  | killAlone p hintno hfound htarget hne hlive hwaiting hcurrent hproc =>
      have hqp : q ≠ p := by
        rintro rfl
        simp only [hproc, if_neg hne, if_true] at hq
        exact hwaiting hq
      refine h.of_keeps hq ?_ fun _ => List.mem_cons_of_mem _
      apply Keeps.of_state
      · simp only [hproc, if_neg hqp]
        split_ifs with hi <;> simp [hi, Kernel.cur]
      · simp only [Live, hproc, if_neg hqp]
        split_ifs with hi
        · exact fun _ => .inl hstate
        · exact id
      · rfl
      · intro w hw
        by_cases hwp : w.pid = p
        · left
          rw [← hw.life, hwp]
          exact List.mem_cons_self
        · simp only [hproc, if_neg (hw.ne_current hrun), if_neg hwp]
          exact .inr trivial
  | killAwaited p w hintno hfound htarget hne hlive hpos hwaiting hother hcurrent hproc =>
      have hended : s.ended = some p := by simp [ended, hintno, hfound, htarget]
      have hwaiter := h.awaits hspared hended hpos hwaiting
      have hqp : q ≠ p := by
        rintro rfl
        simp [hproc, hne] at hq
      refine h.of_keeps hq ?_ fun _ => List.mem_cons_of_mem _
      apply Keeps.of_state
      · simp only [hproc, if_neg hqp]
        split_ifs with hi <;> simp [hi, Kernel.cur]
      · simp only [Live, hproc, if_neg hqp]
        split_ifs with hi
        · exact fun _ => .inl hstate
        · exact fun _ => .inl rfl
        · exact id
      · rfl
      · intro v hv
        by_cases hvp : v.pid = p
        · left
          rw [← hv.life, hvp]
          exact List.mem_cons_self
        · have hvw : v.pid ≠ w := fun heq => hqp (hv.target_eq hwaiter heq)
          simp only [hproc, if_neg (hv.ne_current hrun), if_neg hvp, if_neg hvw]
          exact .inr trivial

/-! ## Descriptors that are filled, emptied and woken -/

/-- A descriptor is filled with a new process only. -/
theorem Effect.revives (heffect : Effect s s₁) (hrun : Running s) (h : Waits s)
    (hspared : Spared s) {i : Nat} (hempty : (s.kernel.procArray i).state = .empty)
    (hfilled : (s₁.kernel.procArray i).state ≠ .empty) :
    (s.kernel.cur.registers.intno.toNat = 49 ∨ s.kernel.cur.registers.intno.toNat = 53) ∧
      (s₁.lives i).born = (s.lives i).born + 1 := by
  have hstate : s.kernel.cur.state = .runnable := hrun.state
  have hcur : i ≠ s.kernel.current := by
    rintro rfl
    rw [Kernel.cur, hempty] at hstate
    cases hstate
  cases heffect with
  | create p hintno hp hdead hk =>
      by_cases hip : i = p
      · subst hip
        exact ⟨hintno, by simp [setLife]⟩
      · obtain ⟨value, hsame⟩ := hk.same hip
        simp [hsame, hempty] at hfilled
  | reply value hcurrent hproc => simp [hproc, hcur, hempty] at hfilled
  | exitAlone hintno hwaiting hcurrent hproc => simp [hproc, hcur, hempty] at hfilled
  | exitAwaited w hintno hpos hwaiting hne hcurrent hproc =>
      have hwaiter := h.awaits hspared (by simp [ended, hintno]) hpos hwaiting
      have hiw : i ≠ w := by
        rintro rfl
        have hblocked := hwaiter.state
        rw [hempty] at hblocked
        cases hblocked
      simp [hproc, hcur, hiw, hempty] at hfilled
  | waitError hintno hcurrent hproc => simp [hproc, hcur, hempty] at hfilled
  | collect p hintno htarget hne hzombie hcurrent hproc =>
      by_cases hip : i = p
      · simp [hproc, hip, hne] at hfilled
      · simp [hproc, hcur, hip, hempty] at hfilled
  | block p hintno htarget hne hlive hcurrent hproc =>
      by_cases hip : i = p
      · subst hip
        simp [hproc, hcur, hempty] at hfilled
      · simp [hproc, hcur, hip, hempty] at hfilled
  | killAlone p hintno hfound htarget hne hlive hwaiting hcurrent hproc =>
      by_cases hip : i = p
      · simp [hproc, hip, hne] at hfilled
      · simp [hproc, hcur, hip, hempty] at hfilled
  | killAwaited p w hintno hfound htarget hne hlive hpos hwaiting hother hcurrent hproc =>
      have hwaiter := h.awaits hspared (by simp [ended, hintno, hfound, htarget]) hpos hwaiting
      have hiw : i ≠ w := by
        rintro rfl
        have hblocked := hwaiter.state
        rw [hempty] at hblocked
        cases hblocked
      by_cases hip : i = p
      · simp [hproc, hip, hne] at hfilled
      · simp [hproc, hcur, hip, hiw, hempty] at hfilled

/-- A zombie is emptied by a `sys_wait` that gets its status, or killed. -/
theorem Effect.zombie (heffect : Effect s s₁) (hrun : Running s) (h : Waits s)
    (hspared : Spared s) {z : Nat} (hzombie : (s.kernel.procArray z).state = .zombie) :
    (s₁.kernel.procArray z).state = .zombie ∧
        (s₁.kernel.procArray z).exitStatus = (s.kernel.procArray z).exitStatus ∨
      (s₁.kernel.procArray z).state = .empty ∧
        (s.kernel.cur.registers.intno.toNat = 52 ∧ target s.kernel = z ∧
            (s₁.kernel.procArray s.kernel.current).registers.eax =
              (s.kernel.procArray z).exitStatus ∨
          s.kernel.cur.registers.intno.toNat = 54) := by
  have hstate : s.kernel.cur.state = .runnable := hrun.state
  have hcur : z ≠ s.kernel.current := by
    rintro rfl
    rw [Kernel.cur, hzombie] at hstate
    cases hstate
  cases heffect with
  | reply value hcurrent hproc =>
      left
      simp [hproc, hcur, hzombie]
  | create p hintno hp hdead hk =>
      have hzp : z ≠ p := by
        rintro rfl
        rw [hzombie] at hdead
        cases hdead
      obtain ⟨value, hsame⟩ := hk.same hzp
      left
      simp [hsame, hzombie]
  | exitAlone hintno hwaiting hcurrent hproc =>
      left
      simp [hproc, hcur, hzombie]
  | exitAwaited w hintno hpos hwaiting hne hcurrent hproc =>
      have hwaiter := h.awaits hspared (by simp [ended, hintno]) hpos hwaiting
      have hzw : z ≠ w := by
        rintro rfl
        have hblocked := hwaiter.state
        rw [hzombie] at hblocked
        cases hblocked
      left
      simp [hproc, hcur, hzw, hzombie]
  | waitError hintno hcurrent hproc =>
      left
      simp [hproc, hcur, hzombie]
  | collect p hintno htarget hne hdead hcurrent hproc =>
      by_cases hzp : z = p
      · right
        subst hzp
        simp [hproc, hcur, hintno, htarget]
      · left
        simp [hproc, hcur, hzp, hzombie]
  | block p hintno htarget hne hlive hcurrent hproc =>
      left
      by_cases hzp : z = p
      · subst hzp
        simp [hproc, hcur, hzombie]
      · simp [hproc, hcur, hzp, hzombie]
  | killAlone p hintno hfound htarget hne hlive hwaiting hcurrent hproc =>
      by_cases hzp : z = p
      · right
        simp [hproc, hzp, hne, hintno]
      · left
        simp [hproc, hcur, hzp, hzombie]
  | killAwaited p w hintno hfound htarget hne hlive hpos hwaiting hother hcurrent hproc =>
      have hwaiter := h.awaits hspared (by simp [ended, hintno, hfound, htarget]) hpos hwaiting
      have hzw : z ≠ w := by
        rintro rfl
        have hblocked := hwaiter.state
        rw [hzombie] at hblocked
        cases hblocked
      by_cases hzp : z = p
      · right
        simp [hproc, hzp, hne, hintno]
      · left
        simp [hproc, hcur, hzp, hzw, hzombie]

/-- A process is woken by the end of the process that it waits for. -/
theorem Effect.wakes (heffect : Effect s s₁) (hrun : Running s) (h : Waits s)
    (hspared : Spared s) {w : Nat} (hblocked : (s.kernel.procArray w).state = .blocked)
    (hwoken : (s₁.kernel.procArray w).state = .runnable) :
    ∃ q, s.ended = some q ∧ Awaits s ⟨w, (s.lives w).born⟩ q := by
  have hstate : s.kernel.cur.state = .runnable := hrun.state
  have hcur : w ≠ s.kernel.current := by
    rintro rfl
    rw [Kernel.cur, hblocked] at hstate
    cases hstate
  cases heffect with
  | reply value hcurrent hproc => simp [hproc, hcur, hblocked] at hwoken
  | create p hintno hp hdead hk =>
      have hwp : w ≠ p := by
        rintro rfl
        rw [hblocked] at hdead
        cases hdead
      obtain ⟨value, hsame⟩ := hk.same hwp
      simp [hsame, hblocked] at hwoken
  | exitAlone hintno hwaiting hcurrent hproc => simp [hproc, hcur, hblocked] at hwoken
  | exitAwaited v hintno hpos hwaiting hne hcurrent hproc =>
      have hended : s.ended = some s.kernel.current := by simp [ended, hintno]
      by_cases hwv : w = v
      · rw [hwv]
        exact ⟨_, hended, h.awaits hspared hended hpos hwaiting⟩
      · simp [hproc, hcur, hwv, hblocked] at hwoken
  | waitError hintno hcurrent hproc => simp [hproc, hcur, hblocked] at hwoken
  | collect p hintno htarget hne hdead hcurrent hproc =>
      by_cases hwp : w = p
      · simp [hproc, hwp, hne] at hwoken
      · simp [hproc, hcur, hwp, hblocked] at hwoken
  | block p hintno htarget hne hlive hcurrent hproc =>
      by_cases hwp : w = p
      · subst hwp
        simp [hproc, hcur, hblocked] at hwoken
      · simp [hproc, hcur, hwp, hblocked] at hwoken
  | killAlone p hintno hfound htarget hne hlive hwaiting hcurrent hproc =>
      by_cases hwp : w = p
      · simp [hproc, hwp, hne] at hwoken
      · simp [hproc, hcur, hwp, hblocked] at hwoken
  | killAwaited p v hintno hfound htarget hne hlive hpos hwaiting hother hcurrent hproc =>
      have hended : s.ended = some p := by simp [ended, hintno, hfound, htarget]
      by_cases hwv : w = v
      · rw [hwv]
        exact ⟨_, hended, h.awaits hspared hended hpos hwaiting⟩
      · by_cases hwp : w = p
        · simp [hproc, hwp, hne] at hwoken
        · simp [hproc, hcur, hwp, hwv, hblocked] at hwoken

/-! ## Runs -/

/-- What holds while no process ends after its last waiter was killed. -/
structure Inv (s : System) : Prop where
  wf : Wf s
  running : Running s
  waits : Waits s

theorem Wf.start (entry : BitVec 32) (memory : Memory) : Wf (.start entry memory) := by
  constructor <;> intro i <;> simp only [System.start, Miniproc.start] <;> split_ifs with hi
  · rfl
  · rfl
  · simp [hi, nprocs]
  · simp
  · simp
  · simp

theorem Inv.start (entry : BitVec 32) (memory : Memory) : Inv (.start entry memory) where
  wf := Wf.start entry memory
  running := ⟨rfl, rfl⟩
  waits q hq := by
    simp only [System.start, Miniproc.start] at hq
    split_ifs at hq <;> simp at hq

theorem Waits.save (h : Waits s) (trap : Trap) : Waits (s.save trap) := by
  intro q hq
  refine h.of_keeps hq ?_ fun _ => id
  apply Keeps.of_state
  · exact save_waiting trap q
  · simp only [Live, save_state]
    exact id
  · rfl
  · intro w _
    exact .inr (save_state trap w.pid)

theorem Waits.run (h : Waits s) (next : Nat) :
    Waits { s with kernel := s.kernel.run next } := by
  intro q hq
  refine h.of_keeps hq ?_ fun _ => id
  exact .of_state rfl id rfl fun _ _ => .inr rfl

theorem Wf.resume (h : Wf s) : Wf s.resume := by
  constructor <;> simp only [resume_kernel]
  · exact h.pid
  · exact h.slot
  · exact h.waiting

theorem Running.resume (hstate : s.kernel.cur.state = .runnable) : Running s.resume := by
  refine ⟨by rw [resume_kernel, hstate], ?_⟩
  rw [resume_call, resume_kernel, if_pos rfl]

/-- The next process runs; it has returned from its `sys_wait`. -/
theorem Inv.resume (hwf : Wf s) (hwaits : Waits s) (hstate : s.kernel.cur.state = .runnable) :
    Inv s.resume where
  wf := hwf.resume
  running := .resume hstate
  waits q hq := by
    refine hwaits.of_keeps hq ⟨?_, ?_, resume_waiter q, ?_⟩ fun w hw => ?_
    · rw [resume_kernel]
    · simp only [Live, resume_kernel]
      exact id
    · intro w hw
      have hne : w.pid ≠ s.kernel.current := by
        intro heq
        have hblocked := hw.state
        rw [heq] at hblocked
        rw [Kernel.cur, hblocked] at hstate
        cases hstate
      right
      apply hw.congr
      · rw [resume_kernel]
      · exact resume_life _
      · exact resume_life _
      · rw [resume_call, if_neg hne]
    · rw [resume_killed]
      exact hw

/-- What every call keeps holds in every run, with or without `sys_kill`. -/
theorem invariant_of_effect (inv : System → Prop) {entry : BitVec 32} {memory : Memory}
    (hstart : inv (.start entry memory))
    (hstep : ∀ trap s s₁ next, Wf s → Running s → inv s → Effect (s.save trap) s₁ →
      inv (resume { s₁ with kernel := s₁.kernel.run next }))
    (h : Reaches System.step (fun _ _ => True) (.start entry memory) s) :
    Wf s ∧ Running s ∧ inv s := by
  apply h.invariant
  · exact ⟨Wf.start entry memory, ⟨rfl, rfl⟩, hstart⟩
  rintro trap s s' ⟨hwf, hrun, hinv⟩ - htrap
  obtain ⟨s₁, next, heffect, -, hnext, rfl⟩ := step_effect hwf hrun htrap
  have hwf₁ := heffect.wf (hwf.save trap) (hrun.save trap)
  have hnext₁ : Wf { s₁ with kernel := s₁.kernel.run next } :=
    ⟨hwf₁.pid, hwf₁.slot, hwf₁.waiting⟩
  exact ⟨hnext₁.resume, .resume hnext, hstep trap s s₁ next hwf hrun hinv heffect⟩

theorem wf_of_reaches {entry : BitVec 32} {memory : Memory}
    (h : Reaches System.step (fun _ _ => True) (.start entry memory) s) : Wf s :=
  (invariant_of_effect (fun _ => True) trivial (fun _ _ _ _ _ _ _ _ => trivial) h).1

theorem Inv.step (h : Inv s) {trap : Trap} {s' : System} (hspared : Spared (s.save trap))
    (hstep : s.step trap = some s') : Inv s' := by
  obtain ⟨s₁, next, heffect, -, hnext, rfl⟩ := step_effect h.wf h.running hstep
  have hrun := h.running.save trap
  have hwf := heffect.wf (h.wf.save trap) hrun
  have hwaits := heffect.waits hrun (h.waits.save trap) hspared
  exact Inv.resume ⟨hwf.pid, hwf.slot, hwf.waiting⟩ (hwaits.run next) hnext

theorem Inv.of_reaches {entry : BitVec 32} {memory : Memory}
    (h : Reaches System.step (fun trap s => Spared (s.save trap)) (.start entry memory) s) :
    Inv s :=
  h.invariant (Inv.start entry memory) fun _ _ _ hinv hspared hstep =>
    hinv.step hspared hstep

end Cs111Labs.Miniproc.System
