import Cs111Labs.Miniproc.Delivery

/-!
# Several waiters on one process

`sys_wait` may be called by any number of processes for the same one, but a
descriptor has one `p_waiting`, and `sys_kill` fills in no return register.
-/

namespace Cs111Labs.Miniproc.System

open Foundation

variable {s s₁ s' : System} {trap : Trap}

/-- No waiter is forgotten or misled. -/
structure Minds (s : System) : Prop where
  blocked : ∀ w call life, (s.kernel.procArray w).state = .blocked →
    (s.lives w).call = some call → call.process = some life → ¬ s.Over life
  returned : ∀ r ∈ s.returns, ∀ life, r.call.process = some life →
    (life, r.value) ∈ s.exits ∨ r.value = -1
  once : ((s.returns.filter (·.value ≠ -1)).filterMap (·.call.process)).Nodup

/-- The process in `w` is blocked in a `sys_wait` for the process in `q`. -/
def BlockedOn (s : System) (w q : Nat) : Prop :=
  (s.kernel.procArray w).state = .blocked ∧
    ∃ call, (s.lives w).call = some call ∧ call.process = some (s.life q)

/-- A process that exits has no waiter but the recorded one, a process that is
killed has none, and the last waiter of either was not killed. -/
structure Heard (s : System) : Prop where
  spared : Spared s
  exit : ∀ w, s.kernel.cur.registers.intno.toNat = 51 →
    BlockedOn s w s.kernel.current → s.kernel.cur.waiting = w
  kill : ∀ q w, s.kernel.cur.registers.intno.toNat = 54 → s.ended = some q →
    ¬ BlockedOn s w q

theorem Awaits.blockedOn {w : LifeId} {q : Nat} (h : Awaits s w q) : BlockedOn s w.pid q :=
  ⟨h.state, _, h.call, rfl⟩

theorem Heard.killsAlone (h : Heard s) (hwaits : Waits s) : KillsAlone s := by
  intro q hintno hended hpos
  obtain ⟨w, hw⟩ : ∃ w : Nat, (s.kernel.procArray q).waiting = w :=
    ⟨_, (Int.toNat_of_nonneg hpos.le).symm⟩
  have hawaits := hwaits.awaits h.spared hended (by omega) hw
  exact h.kill q w hintno hended hawaits.blockedOn

/-! ## Who is waited for is alive -/

/-- Each process that is blocked waits for one that is alive. -/
def Targets (s : System) : Prop :=
  ∀ w call, (s.kernel.procArray w).state = .blocked → (s.lives w).call = some call →
    ∃ q, call.process = some (s.life q) ∧ s.Live q

/-- Blocked processes were so before, and no target of theirs ends. -/
theorem Targets.of_kept (h : Targets s)
    (hblocked : ∀ w call, (s₁.kernel.procArray w).state = .blocked →
      (s₁.lives w).call = some call →
      (s.kernel.procArray w).state = .blocked ∧ (s.lives w).call = some call)
    (hlive : ∀ q w, s.Live q → (s₁.kernel.procArray w).state = .blocked → BlockedOn s w q →
      s₁.life q = s.life q ∧ s₁.Live q) : Targets s₁ := by
  intro w call hw hcall
  obtain ⟨hold, holdCall⟩ := hblocked w call hw hcall
  obtain ⟨q, hprocess, hq⟩ := h w call hold holdCall
  obtain ⟨hlife, hq₁⟩ := hlive q w hq hw ⟨hold, call, holdCall, hprocess⟩
  exact ⟨q, by rw [hlife, hprocess], hq₁⟩

theorem Effect.targets (heffect : Effect s s₁) (hwf : Wf s) (hrun : Running s)
    (hwaits : Waits s) (hheard : Heard s) (h : Targets s) : Targets s₁ := by
  have hstate : (s.kernel.procArray s.kernel.current).state = .runnable := hrun.state
  have hrunnable : s.kernel.cur.state = .runnable := hrun.state
  cases heffect with
  | reply value hcurrent hproc =>
      apply h.of_kept
      · intro w call hw hcall
        simp only [hproc] at hw
        split_ifs at hw with hi
        · simp [hrunnable] at hw
        · exact ⟨hw, hcall⟩
      · intro q w hq _ _
        refine ⟨rfl, ?_⟩
        simp only [Live, hproc] at hq ⊢
        split_ifs with hi
        · exact .inl hrunnable
        · exact hq
  | @create k p hintno hp hempty hk =>
      have hlives : ∀ i, i ≠ p →
          Function.update s.lives p { born := (s.lives p).born + 1 } i = s.lives i :=
        fun i hi => Function.update_of_ne hi ..
      apply h.of_kept
      · intro w call hw hcall
        have hwp : w ≠ p := by
          rintro rfl
          change (k.procArray w).state = .blocked at hw
          rw [hk.state] at hw
          cases hw
        obtain ⟨value, hsame⟩ := hk.same hwp
        simp only [hsame] at hw
        exact ⟨hw, (congrArg Life.call (hlives w hwp)).symm.trans hcall⟩
      · intro q w hq _ _
        have hqp : q ≠ p := by
          rintro rfl
          simp [Live, hempty] at hq
        obtain ⟨value, hsame⟩ := hk.same hqp
        refine ⟨congrArg (fun life : Life => LifeId.mk q life.born) (hlives q hqp), ?_⟩
        simp only [Live, hsame]
        exact hq
  | exitAlone hintno hwaiting hcurrent hproc =>
      apply h.of_kept
      · intro w call hw hcall
        simp only [hproc] at hw
        split_ifs at hw with hi
        exact ⟨hw, hcall⟩
      · intro q w hq _ hon
        have hqc : q ≠ s.kernel.current := by
          rintro rfl
          have hslot := hwf.slot w (by rw [hon.1]; decide)
          have hrecorded := hheard.exit w hintno hon
          omega
        refine ⟨rfl, ?_⟩
        simp only [Live, hproc, if_neg hqc]
        exact hq
  | exitAwaited v hintno hpos hwaiting hne hcurrent hproc =>
      apply h.of_kept
      · intro w call hw hcall
        simp only [hproc] at hw
        split_ifs at hw with hi hv
        exact ⟨hw, hcall⟩
      · intro q w hq hw hon
        have hqc : q ≠ s.kernel.current := by
          rintro rfl
          have hrecorded := hheard.exit w hintno hon
          have hwv : w = v := by omega
          simp [hproc, hwv, hne] at hw
        refine ⟨rfl, ?_⟩
        simp only [Live, hproc, if_neg hqc]
        split_ifs
        · exact .inl rfl
        · exact hq
  | waitError hintno hcurrent hproc =>
      apply h.of_kept
      · intro w call hw hcall
        have hcall := (setCall_call ..).symm.trans hcall
        simp only [hproc] at hw
        split_ifs at hw hcall with hi
        · simp [hrunnable] at hw
        · exact ⟨hw, hcall⟩
      · intro q w hq _ _
        refine ⟨congrArg (LifeId.mk q) (setCall_born ..), ?_⟩
        simp only [Live, hproc]
        split_ifs with hi
        · exact .inl hrunnable
        · exact hq
  | collect p hintno htarget hne hzombie hcurrent hproc =>
      apply h.of_kept
      · intro w call hw hcall
        have hcall := (setCall_call ..).symm.trans hcall
        simp only [hproc] at hw
        split_ifs at hw hcall with hi hp
        exact ⟨hw, hcall⟩
      · intro q w hq _ _
        have hqp : q ≠ p := by
          rintro rfl
          simp [Live, hzombie] at hq
        refine ⟨congrArg (LifeId.mk q) (setCall_born ..), ?_⟩
        simp only [Live, hproc, if_neg hqp]
        split_ifs with hi
        · exact .inl rfl
        · exact hq
  | @block k p hintno htarget hne hlive hcurrent hproc =>
      -- The caller is blocked now, and as a target it is still alive.
      have hborn : ∀ i, System.life { (s.setCall s.kernel.current
          (some ⟨p, some (s.life p)⟩)).setWaiter p (s.life s.kernel.current) with
            kernel := k } i = s.life i := by
        intro i
        exact congrArg (LifeId.mk i) ((setWaiter_born ..).trans (setCall_born ..))
      have hstays : ∀ q, s.Live q → Live { (s.setCall s.kernel.current
          (some ⟨p, some (s.life p)⟩)).setWaiter p (s.life s.kernel.current) with
            kernel := k } q := by
        intro q hq
        simp only [Live, hproc]
        split_ifs
        · exact .inr rfl
        · exact hq
        · exact hq
      intro w call hw hcall
      have hcall := (setCall_call ..).symm.trans ((setWaiter_call ..).symm.trans hcall)
      simp only [hproc] at hw
      split_ifs at hw hcall with hi hp
      · obtain rfl := Option.some.inj hcall
        exact ⟨p, by rw [hborn], hstays p hlive⟩
      · obtain ⟨q, hprocess, hq⟩ := h w call hw hcall
        exact ⟨q, by rw [hborn, hprocess], hstays q hq⟩
      · obtain ⟨q, hprocess, hq⟩ := h w call hw hcall
        exact ⟨q, by rw [hborn, hprocess], hstays q hq⟩
  | killAlone p hintno hfound htarget hne hlive hwaiting hcurrent hproc =>
      have hended : s.ended = some p := by simp [ended, hintno, hfound, htarget]
      apply h.of_kept
      · intro w call hw hcall
        simp only [hproc] at hw
        split_ifs at hw with hi hp
        · simp [hrunnable] at hw
        · exact ⟨hw, hcall⟩
      · intro q w hq _ hon
        have hqp : q ≠ p := by
          rintro rfl
          exact hheard.kill q w hintno hended hon
        refine ⟨rfl, ?_⟩
        simp only [Live, hproc, if_neg hqp]
        split_ifs with hi
        · exact .inl hrunnable
        · exact hq
  | killAwaited p w hintno hfound htarget hne hlive hpos hwaiting hother hcurrent hproc =>
      have hended : s.ended = some p := by simp [ended, hintno, hfound, htarget]
      have halone := hheard.killsAlone hwaits p hintno hended
      omega

theorem Targets.save (h : Targets s) (trap : Trap) : Targets (s.save trap) := by
  apply h.of_kept
  · intro w call hw hcall
    exact ⟨(save_state trap w).symm.trans hw, hcall⟩
  · intro q w hq _ _
    refine ⟨rfl, ?_⟩
    simp only [Live, save_state]
    exact hq

theorem Targets.run (h : Targets s) (next : Nat) :
    Targets { s with kernel := s.kernel.run next } :=
  h.of_kept (fun _ _ hw hcall => ⟨hw, hcall⟩) fun _ _ hq _ _ => ⟨rfl, hq⟩

theorem Targets.resume (h : Targets s) : Targets s.resume := by
  apply h.of_kept
  · intro w call hw hcall
    rw [resume_kernel] at hw
    rw [resume_call] at hcall
    split_ifs at hcall
    exact ⟨hw, hcall⟩
  · intro q w hq _ _
    refine ⟨resume_life q, ?_⟩
    simp only [Live, resume_kernel]
    exact hq

/-- A process that is alive has not ended. -/
theorem Live.not_over {q : Nat} (h : s.Live q) : ¬ s.Over (s.life q) := by
  rintro (hgone | ⟨-, hzombie⟩)
  · refine not_gone ?_ hgone
    rcases h with hrunnable | hblocked
    · rw [hrunnable]
      nofun
    · rw [hblocked]
      nofun
  · change (s.kernel.procArray q).state = .zombie at hzombie
    simp [Live, hzombie] at h

/-! ## Runs -/

/-- What holds while every waiter is heard. -/
structure Attends (s : System) : Prop where
  inv : Inv s
  exited : Exited s
  answers : Answers s
  targets : Targets s

theorem Attends.start (entry : BitVec 32) (memory : Memory) :
    Attends (.start entry memory) where
  inv := Inv.start entry memory
  exited := (Delivers.start entry memory).exited
  answers := (Delivers.start entry memory).answers
  targets := by
    rintro w call - ⟨⟩

theorem Attends.step (h : Attends s) (hheard : Heard (s.save trap))
    (hstep : s.step trap = some s') : Attends s' := by
  have hrun := h.inv.running.save trap
  have hwaits := h.inv.waits.save trap
  have hinv := h.inv.step hheard.spared hstep
  obtain ⟨s₁, next, heffect, -, hnext, rfl⟩ := step_effect h.inv.wf h.inv.running hstep
  have hexited := heffect.exited hrun hwaits hheard.spared (h.exited.save trap)
  have hanswers := heffect.answers hrun hwaits hheard.spared (h.exited.save trap)
    (h.answers.save h.inv.running trap) (hheard.killsAlone hwaits)
  have htargets := heffect.targets (h.inv.wf.save trap) hrun hwaits hheard
    (h.targets.save trap)
  constructor
  · exact hinv
  · exact (hexited.run next).resume
  · exact (hanswers.run next).resume hnext
  · exact (htargets.run next).resume

theorem Attends.minds (h : Attends s) : Minds s where
  blocked w call life hw hcall hlife := by
    obtain ⟨q, hprocess, hq⟩ := h.targets w call hw hcall
    rw [hlife] at hprocess
    rw [Option.some.inj hprocess]
    exact hq.not_over
  returned r hr life hlife := by
    have hanswer := h.answers.returned r hr
    simp only [WaitCall.Answered, hlife] at hanswer
    exact .inl hanswer
  once := h.answers.unique.sublist (List.filter_sublist.filterMap _)

theorem minds_of_reaches {entry : BitVec 32} {memory : Memory}
    (hrun : Reaches System.step (fun trap s => Heard (s.save trap)) (.start entry memory) s) :
    Minds s := by
  have hattends : Attends s := hrun.invariant (Attends.start entry memory)
    fun _ _ _ hinv hheard hstep => hinv.step hheard hstep
  exact hattends.minds

theorem Heard.of_not_ending
    (hintno : s.kernel.cur.registers.intno.toNat ≠ 51 ∧
      s.kernel.cur.registers.intno.toNat ≠ 54) : Heard s where
  spared := by
    intro q w hended
    unfold ended at hended
    split at hended
    · exact absurd ‹_› hintno.1
    · exact absurd ‹_› hintno.2
    · cases hended
  exit := fun _ hexit => absurd hexit hintno.1
  kill := fun _ _ hkill => absurd hkill hintno.2

/-- Process 1 waits for process 2, which exits. -/
theorem minds_of_reaches_exit :
    ∃ s, runEvents System.step [callWith 49 0, callWith 52 2, callWith 51 7]
        (.start 0 fun _ => 0) = some s ∧ s.returns = [⟨⟨2, some ⟨2, 1⟩⟩, 7⟩] ∧ Minds s := by
  have hrun : ∃ s s', Reaches System.step (fun trap s => Heard (s.save trap))
      (.start 0 fun _ => 0) s ∧ s.killed = [] ∧
      (∀ w < nprocs, (s.kernel.procArray w).state = .blocked → s.kernel.cur.waiting = w) ∧
      s.step (callWith 51 7) = some s' ∧
      runEvents System.step [callWith 49 0, callWith 52 2, callWith 51 7]
        (.start 0 fun _ => 0) = some s' ∧ s'.returns = [⟨⟨2, some ⟨2, 1⟩⟩, 7⟩] :=
    ⟨_, _, (Reaches.start.next (callWith 49 0) (.of_not_ending (by decide)) rfl).next
      (callWith 52 2) (.of_not_ending (by decide)) rfl, rfl, by decide, rfl, rfl, rfl⟩
  obtain ⟨s, s', hreaches, hkilled, hrecorded, hstep, hevents, hreturns⟩ := hrun
  have hwf : Wf s := wf_of_reaches (hreaches.mono fun _ _ _ => trivial)
  have hheard : Heard (s.save (callWith 51 7)) := by
    refine ⟨.of_none hkilled, ?_, ?_⟩
    · rintro w - ⟨hblocked, -⟩
      rw [save_state] at hblocked
      rw [save_cur]
      exact hrecorded w (hwf.slot w (by rw [hblocked]; nofun)).2 hblocked
    · intro q w hintno
      rw [save_cur] at hintno
      exact absurd hintno (show (callWith 51 7).registers.intno.toNat ≠ 54 by decide)
  exact ⟨s', hevents, hreturns, minds_of_reaches (hreaches.next _ hheard hstep)⟩

/-- Processes 1 and 3 wait for process 2, which exits. -/
def twoWaiters : List Trap :=
  [callWith 49 0, callWith 49 0, callWith 52 2, callWith 50 0, callWith 52 2, callWith 51 7]

/-- Process 1 waits for process 2, and process 3 kills it. -/
def awaitedKilled : List Trap :=
  [callWith 49 0, callWith 49 0, callWith 52 2, callWith 50 0, callWith 54 2]

/-- The first waiter is still blocked. -/
theorem twoWaiters_not_minds :
    ¬ ∀ (entry : BitVec 32) (memory : Memory) (s : System),
      Reaches System.step (fun _ _ => True) (.start entry memory) s → Minds s := by
  intro hall
  obtain ⟨s, hevents, hstate, hcall, hempty⟩ : ∃ s,
      runEvents System.step twoWaiters (.start 0 fun _ => 0) = some s ∧
      (s.kernel.procArray 1).state = .blocked ∧
      (s.lives 1).call = some ⟨2, some (s.life 2)⟩ ∧
      (s.kernel.procArray 2).state = .empty := ⟨_, rfl, rfl, rfl, rfl⟩
  have hminds := hall 0 _ s (.of_runEvents _ .start hevents)
  exact hminds.blocked 1 _ _ hstate hcall rfl (.inl (.inr ⟨rfl, hempty⟩))

/-- The waiter returns the number of the killed process. -/
theorem awaitedKilled_not_minds :
    ¬ ∀ (entry : BitVec 32) (memory : Memory) (s : System),
      Reaches System.step (fun _ _ => True) (.start entry memory) s → Minds s := by
  intro hall
  obtain ⟨s, hevents, hreturns, hexits⟩ : ∃ s,
      runEvents System.step awaitedKilled (.start 0 fun _ => 0) = some s ∧
      s.returns = [⟨⟨2, some ⟨2, 1⟩⟩, 2⟩] ∧ s.exits = [] := ⟨_, rfl, rfl, rfl⟩
  have hminds := hall 0 _ s (.of_runEvents _ .start hevents)
  have hreturned := hminds.returned ⟨⟨2, some ⟨2, 1⟩⟩, 2⟩ (by simp [hreturns]) ⟨2, 1⟩ rfl
  rw [hexits] at hreturned
  revert hreturned
  decide

end Cs111Labs.Miniproc.System
