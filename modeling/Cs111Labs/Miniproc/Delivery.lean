import Cs111Labs.Miniproc.Waits

/-!
# The exit statuses of MiniprocOS

Without `sys_kill` every exit status reaches one `sys_wait` at most, and a
`sys_wait` that returns has the status of the process that it was called for.
-/

namespace Cs111Labs.Miniproc

open Foundation

/-- The value that a `sys_wait` has to return. -/
def WaitCall.Answered (call : WaitCall) (exits : List (LifeId × BitVec 32))
    (value : BitVec 32) : Prop :=
  match call.process with
  | none => value = -1
  | some life => (life, value) ∈ exits

theorem WaitCall.Answered.mono {call : WaitCall} {exits exits' : List (LifeId × BitVec 32)}
    {value : BitVec 32} (h : call.Answered exits value) (hsub : ∀ e ∈ exits, e ∈ exits') :
    call.Answered exits' value := by
  unfold WaitCall.Answered at *
  split
  · rename_i hnone
    simpa only [hnone] using h
  · rename_i life hlife
    simp only [hlife] at h
    exact hsub _ h

namespace System

variable {s s₁ s' : System} {trap : Trap}

/-- The process has ended; its descriptor is empty, or was used again. -/
def Gone (s : System) (life : LifeId) : Prop :=
  life.born < (s.lives life.pid).born ∨
    life = s.life life.pid ∧ (s.kernel.procArray life.pid).state = .empty

/-- The process has called `sys_exit`. -/
def Over (s : System) (life : LifeId) : Prop :=
  s.Gone life ∨ life = s.life life.pid ∧ (s.kernel.procArray life.pid).state = .zombie

/-- The process is about to return from this `sys_wait`. -/
def Ready (s : System) (w : Nat) (call : WaitCall) : Prop :=
  (s.kernel.procArray w).state = .runnable ∧ (s.lives w).call = some call

/-- The processes whose status was returned. -/
def collected (s : System) : List LifeId := s.returns.filterMap (·.call.process)

structure Exited (s : System) : Prop where
  ended : ∀ e ∈ s.exits, s.Over e.1
  once : (s.exits.map Prod.fst).Nodup
  zombie : ∀ z, (s.kernel.procArray z).state = .zombie →
    (s.life z, (s.kernel.procArray z).exitStatus) ∈ s.exits

structure Answers (s : System) : Prop where
  ready : ∀ w call, Ready s w call →
    call.Answered s.exits (s.kernel.procArray w).registers.eax
  returned : ∀ r ∈ s.returns, r.call.Answered s.exits r.value
  unique : s.collected.Nodup
  fresh : ∀ w call life, Ready s w call → call.process = some life → life ∉ s.collected
  apart : ∀ w w' call call' life, Ready s w call → Ready s w' call' →
    call.process = some life → call'.process = some life → w = w'
  gone : ∀ life, life ∈ s.collected → s.Gone life
  gone_ready : ∀ w call life, Ready s w call → call.process = some life → s.Gone life

/-! ## Lives go on in one direction -/

/-- A descriptor that is empty or a zombie stays so until it is used again. -/
structure Ages (s s₁ : System) : Prop where
  born : ∀ i, (s.lives i).born ≤ (s₁.lives i).born
  empty : ∀ i, (s₁.lives i).born = (s.lives i).born →
    (s.kernel.procArray i).state = .empty → (s₁.kernel.procArray i).state = .empty
  zombie : ∀ i, (s₁.lives i).born = (s.lives i).born →
    (s.kernel.procArray i).state = .zombie →
      (s₁.kernel.procArray i).state = .empty ∨ (s₁.kernel.procArray i).state = .zombie

theorem Gone.ages {life : LifeId} (h : s.Gone life) (hages : Ages s s₁) : s₁.Gone life := by
  have hborn := hages.born life.pid
  rcases h with hlt | ⟨hlife, hempty⟩
  · exact .inl (hlt.trans_le hborn)
  · rcases hborn.eq_or_lt with heq | hlt
    · refine .inr ⟨?_, hages.empty _ heq.symm hempty⟩
      rw [System.life, ← heq]
      exact hlife
    · rw [hlife]
      exact .inl hlt

theorem Over.ages {life : LifeId} (h : s.Over life) (hages : Ages s s₁) : s₁.Over life := by
  rcases h with hgone | ⟨hlife, hzombie⟩
  · exact .inl (hgone.ages hages)
  · rcases (hages.born life.pid).eq_or_lt with heq | hlt
    · have hlife₁ : life = s₁.life life.pid := by
        rw [System.life, ← heq]
        exact hlife
      exact (hages.zombie _ heq.symm hzombie).imp (fun h => .inr ⟨hlife₁, h⟩)
        fun h => ⟨hlife₁, h⟩
    · left
      left
      rw [hlife]
      exact hlt

theorem Ages.of_same
    (hstate : ∀ i, (s₁.kernel.procArray i).state = (s.kernel.procArray i).state)
    (hlives : ∀ i, s₁.life i = s.life i) :
    Ages s s₁ where
  born i := (congrArg LifeId.born (hlives i)).ge
  empty i _ h := (hstate i).trans h
  zombie i _ h := .inr ((hstate i).trans h)

/-- The process in a descriptor that is in use has not gone. -/
theorem not_gone {pid : Nat} (h : (s.kernel.procArray pid).state ≠ .empty) :
    ¬ s.Gone (s.life pid) := by
  rintro (hlt | ⟨-, hempty⟩)
  · exact lt_irrefl _ hlt
  · exact h hempty

/-! ## What is known about the answers -/

/-- Some processes get ready with the status of a process that goes now. -/
theorem Answers.of_new (h : Answers s) (hages : Ages s s₁) (new : Nat → WaitCall → Prop)
    (hexits : ∀ e ∈ s.exits, e ∈ s₁.exits) (hreturns : s₁.returns = s.returns)
    (hready : ∀ w call, Ready s₁ w call → new w call ∨ Ready s w call ∧
      (s₁.kernel.procArray w).registers.eax = (s.kernel.procArray w).registers.eax)
    (hnew : ∀ w call, new w call →
      call.Answered s₁.exits (s₁.kernel.procArray w).registers.eax ∧
        ∀ life, call.process = some life → ¬ s.Gone life ∧ s₁.Gone life)
    (hone : ∀ w w' call call', new w call → new w' call' → w = w') : Answers s₁ := by
  have hcollected : s₁.collected = s.collected := by rw [collected, hreturns, collected]
  constructor
  · intro w call hw
    rcases hready w call hw with hw | ⟨hw, heax⟩
    · exact (hnew w call hw).1
    · rw [heax]
      exact (h.ready w call hw).mono hexits
  · intro r hr
    rw [hreturns] at hr
    exact (h.returned r hr).mono hexits
  · rw [hcollected]
    exact h.unique
  · intro w call life hw hlife hmem
    rw [hcollected] at hmem
    rcases hready w call hw with hw | ⟨hw, -⟩
    · exact ((hnew w call hw).2 life hlife).1 (h.gone life hmem)
    · exact h.fresh w call life hw hlife hmem
  · intro w w' call call' life hw hw' hlife hlife'
    rcases hready w call hw with hw | ⟨hw, -⟩ <;>
      rcases hready w' call' hw' with hw' | ⟨hw', -⟩
    · exact hone w w' call call' hw hw'
    · exact absurd (h.gone_ready w' call' life hw' hlife') ((hnew w call hw).2 life hlife).1
    · exact absurd (h.gone_ready w call life hw hlife) ((hnew w' call' hw').2 life hlife').1
    · exact h.apart w w' call call' life hw hw' hlife hlife'
  · intro life hmem
    rw [hcollected] at hmem
    exact (h.gone life hmem).ages hages
  · intro w call life hw hlife
    rcases hready w call hw with hw | ⟨hw, -⟩
    · exact ((hnew w call hw).2 life hlife).2
    · exact (h.gone_ready w call life hw hlife).ages hages

theorem Answers.of_same (h : Answers s) (hages : Ages s s₁)
    (hexits : ∀ e ∈ s.exits, e ∈ s₁.exits) (hreturns : s₁.returns = s.returns)
    (hready : ∀ w call, Ready s₁ w call → Ready s w call ∧
      (s₁.kernel.procArray w).registers.eax = (s.kernel.procArray w).registers.eax) :
    Answers s₁ :=
  h.of_new hages (fun _ _ => False) hexits hreturns (fun w call hw => .inr (hready w call hw))
    (fun _ _ => False.elim) fun _ _ _ _ => False.elim

/-! ## One call -/

theorem Effect.ages (heffect : Effect s s₁) (hrun : Running s) (h : Waits s)
    (hspared : Spared s) : Ages s s₁ := by
  have hborn : ∀ i, (s₁.lives i).born = (s.lives i).born ∨
      (s₁.lives i).born = (s.lives i).born + 1 := by
    intro i
    cases heffect with
    | create p hintno hp hempty hk =>
        simp only [setLife, Function.update_apply]
        split_ifs with hi
        · rw [hi]
          exact .inr rfl
        · exact .inl rfl
    | reply value hcurrent hproc => exact .inl rfl
    | exitAlone hintno hwaiting hcurrent hproc => exact .inl rfl
    | exitAwaited w hintno hpos hwaiting hne hcurrent hproc => exact .inl rfl
    | waitError hintno hcurrent hproc => exact .inl (setCall_born ..)
    | collect p hintno htarget hne hzombie hcurrent hproc => exact .inl (setCall_born ..)
    | block p hintno htarget hne hlive hcurrent hproc =>
        exact .inl ((setWaiter_born ..).trans (setCall_born ..))
    | killAlone p hintno hfound htarget hne hlive hwaiting hcurrent hproc => exact .inl rfl
    | killAwaited p w hintno hfound htarget hne hlive hpos hwaiting hother hcurrent hproc =>
        exact .inl rfl
  constructor
  · intro i
    have hi := hborn i
    omega
  · intro i hsame hempty
    by_contra hfilled
    have hborn := (heffect.revives hrun h hspared hempty hfilled).2
    omega
  · intro i _ hzombie
    exact (heffect.zombie hrun h hspared hzombie).symm.imp (·.1) (·.1)

/-- Processes that do not end now leave the exits as they are. -/
theorem Exited.of_same (h : Exited s) (hages : Ages s s₁) (hexits : s₁.exits = s.exits)
    (hzombie : ∀ z, (s₁.kernel.procArray z).state = .zombie →
      (s.kernel.procArray z).state = .zombie ∧ s₁.life z = s.life z ∧
        (s₁.kernel.procArray z).exitStatus = (s.kernel.procArray z).exitStatus) :
    Exited s₁ where
  ended e he := by
    rw [hexits] at he
    exact (h.ended e he).ages hages
  once := by
    rw [hexits]
    exact h.once
  zombie z hz := by
    obtain ⟨hold, hlife, hstatus⟩ := hzombie z hz
    rw [hexits, hlife, hstatus]
    exact h.zombie z hold

/-- The current process has not exited before. -/
theorem Exited.not_mem (h : Exited s) (hrun : Running s) :
    s.life s.kernel.current ∉ s.exits.map Prod.fst := by
  intro hmem
  obtain ⟨e, he, hlife⟩ := List.mem_map.mp hmem
  have hended := h.ended e he
  have hstate : (s.kernel.procArray s.kernel.current).state = .runnable := hrun.state
  rw [hlife] at hended
  rcases hended with hgone | ⟨-, hzombie⟩
  · exact not_gone (by rw [hstate]; decide) hgone
  · change (s.kernel.procArray s.kernel.current).state = .zombie at hzombie
    rw [hstate] at hzombie
    cases hzombie

theorem Effect.exited (heffect : Effect s s₁) (hrun : Running s) (h : Waits s)
    (hspared : Spared s) (hexited : Exited s) : Exited s₁ := by
  have hages := heffect.ages hrun h hspared
  have hstate : (s.kernel.procArray s.kernel.current).state = .runnable := hrun.state
  have hrunnable : s.kernel.cur.state = .runnable := hrun.state
  have hexit : ∀ {k : Kernel}, Ages s { s.noteExit with kernel := k } →
      s.Over (s.life s.kernel.current) ∨
        Over { s.noteExit with kernel := k } (s.life s.kernel.current) →
      (∀ z, (k.procArray z).state = .zombie → z = s.kernel.current ∧
          (k.procArray z).exitStatus = s.kernel.cur.registers.eax ∨
        (s.kernel.procArray z).state = .zombie ∧
          (k.procArray z).exitStatus = (s.kernel.procArray z).exitStatus) →
      Exited { s.noteExit with kernel := k } := by
    intro k hages hover hzombie
    constructor
    · intro e he
      rcases List.mem_cons.mp he with hnew | hold
      · rw [hnew]
        exact hover.elim (fun hover => hover.ages hages) id
      · exact (hexited.ended e hold).ages hages
    · exact List.nodup_cons.mpr ⟨hexited.not_mem hrun, hexited.once⟩
    · intro z hz
      rcases hzombie z hz with ⟨hcur, hstatus⟩ | ⟨hold, hstatus⟩
      · rw [hcur] at hstatus ⊢
        exact List.mem_cons.mpr (.inl (Prod.ext rfl hstatus))
      · exact List.mem_cons_of_mem _ (by
          change (s.life z, (k.procArray z).exitStatus) ∈ s.exits
          rw [hstatus]
          exact hexited.zombie z hold)
  cases heffect with
  | reply value hcurrent hproc =>
      apply hexited.of_same hages rfl
      intro z hz
      simp only [hproc] at hz ⊢
      split_ifs at hz ⊢ with hi
      · simp [hrunnable] at hz
      · exact ⟨hz, rfl, rfl⟩
  | @create k p hintno hp hempty hk =>
      apply hexited.of_same hages rfl
      intro z hz
      have hzp : z ≠ p := by
        rintro rfl
        change (k.procArray z).state = .zombie at hz
        rw [hk.state] at hz
        cases hz
      obtain ⟨value, hsame⟩ := hk.same hzp
      simp only [hsame] at hz ⊢
      have hlives : Function.update s.lives p { born := (s.lives p).born + 1 } z =
          s.lives z := Function.update_of_ne hzp ..
      exact ⟨hz, congrArg (fun life : Life => LifeId.mk z life.born) hlives, rfl⟩
  | exitAlone hintno hwaiting hcurrent hproc =>
      apply hexit hages
      · exact .inr (.inr ⟨rfl, by simp [System.life, hproc]⟩)
      · intro z hz
        simp only [hproc] at hz ⊢
        split_ifs at hz ⊢ with hi
        · exact .inl ⟨hi, rfl⟩
        · exact .inr ⟨hz, rfl⟩
  | exitAwaited w hintno hpos hwaiting hne hcurrent hproc =>
      apply hexit hages
      · exact .inr (.inl (.inr ⟨rfl, by simp [System.life, hproc]⟩))
      · intro z hz
        simp only [hproc] at hz ⊢
        split_ifs at hz ⊢ with hi hw
        exact .inr ⟨hz, rfl⟩
  | waitError hintno hcurrent hproc =>
      apply hexited.of_same hages rfl
      intro z hz
      simp only [hproc] at hz ⊢
      split_ifs at hz ⊢ with hi
      · simp [hrunnable] at hz
      · exact ⟨hz, congrArg (LifeId.mk z) (setCall_born ..), rfl⟩
  | collect p hintno htarget hne hzombie hcurrent hproc =>
      apply hexited.of_same hages rfl
      intro z hz
      simp only [hproc] at hz ⊢
      split_ifs at hz ⊢ with hi hp
      exact ⟨hz, congrArg (LifeId.mk z) (setCall_born ..), rfl⟩
  | block p hintno htarget hne hlive hcurrent hproc =>
      apply hexited.of_same hages rfl
      intro z hz
      have hlife : ∀ call life, (((s.setCall s.kernel.current call).setWaiter p life).lives
          z).born = (s.lives z).born := by
        intro call life
        rw [setWaiter_born, setCall_born]
      simp only [hproc] at hz ⊢
      split_ifs at hz ⊢ with hi hp
      · exact ⟨hz, congrArg (LifeId.mk z) (hlife _ _), rfl⟩
      · exact ⟨hz, congrArg (LifeId.mk z) (hlife _ _), rfl⟩
  | killAlone p hintno hfound htarget hne hlive hwaiting hcurrent hproc =>
      apply hexited.of_same hages rfl
      intro z hz
      simp only [hproc] at hz ⊢
      split_ifs at hz ⊢ with hi hp
      · simp [hrunnable] at hz
      · exact ⟨hz, rfl, rfl⟩
  | killAwaited p w hintno hfound htarget hne hlive hpos hwaiting hother hcurrent hproc =>
      apply hexited.of_same hages rfl
      intro z hz
      simp only [hproc] at hz ⊢
      split_ifs at hz ⊢ with hi hp hw
      · simp [hrunnable] at hz
      · exact ⟨hz, rfl, rfl⟩

/-- Nobody is recorded as a waiter of a process that is killed. -/
def KillsAlone (s : System) : Prop :=
  ∀ q, s.kernel.cur.registers.intno.toNat = 54 → s.ended = some q →
    ¬ 0 < (s.kernel.procArray q).waiting

theorem Effect.answers (heffect : Effect s s₁) (hrun : Running s) (h : Waits s)
    (hspared : Spared s) (hexited : Exited s) (hanswers : Answers s)
    (hkill : KillsAlone s) : Answers s₁ := by
  have hages := heffect.ages hrun h hspared
  have hstate : (s.kernel.procArray s.kernel.current).state = .runnable := hrun.state
  have hcall := hrun.call
  cases heffect with
  | reply value hcurrent hproc =>
      apply hanswers.of_same hages (fun _ => id) rfl
      rintro v call ⟨hv, hvcall⟩
      have hvc : v ≠ s.kernel.current := by
        rintro rfl
        rw [hcall] at hvcall
        cases hvcall
      simp only [hproc, if_neg hvc] at hv ⊢
      exact ⟨⟨hv, hvcall⟩, trivial⟩
  | @create k p hintno hp hempty hk =>
      apply hanswers.of_same hages (fun _ => id) rfl
      rintro v call ⟨hv, hvcall⟩
      simp only [setLife, Function.update_apply] at hvcall
      split_ifs at hvcall with hvp
      have hvc : v ≠ s.kernel.current := by
        rintro rfl
        rw [hcall] at hvcall
        cases hvcall
      simp only [hk.other v hvc hvp] at hv ⊢
      exact ⟨⟨hv, hvcall⟩, trivial⟩
  | exitAlone hintno hwaiting hcurrent hproc =>
      apply hanswers.of_same hages (fun _ => List.mem_cons_of_mem _) rfl
      rintro v call ⟨hv, hvcall⟩
      simp only [hproc] at hv ⊢
      split_ifs at hv ⊢ with hvc
      exact ⟨⟨hv, hvcall⟩, rfl⟩
  | exitAwaited w hintno hpos hwaiting hne hcurrent hproc =>
      have hwaiter := h.awaits hspared (by simp [ended, hintno]) hpos hwaiting
      apply hanswers.of_new hages (fun v call => v = w ∧
        call = ⟨s.kernel.current, some (s.life s.kernel.current)⟩)
        (fun _ => List.mem_cons_of_mem _) rfl
      · rintro v call ⟨hv, hvcall⟩
        simp only [hproc] at hv ⊢
        split_ifs at hv ⊢ with hvc hvw
        · left
          have hold := hwaiter.call
          subst hvw
          exact ⟨rfl, Option.some.inj (hvcall.symm.trans hold)⟩
        · exact .inr ⟨⟨hv, hvcall⟩, rfl⟩
      · rintro v call ⟨rfl, rfl⟩
        constructor
        · simp only [hproc, if_neg hne, if_true]
          exact List.mem_cons_self
        · rintro life ⟨⟩
          refine ⟨not_gone (by rw [hstate]; decide), .inr ⟨rfl, ?_⟩⟩
          simp [System.life, hproc]
      · rintro v v' call call' ⟨rfl, -⟩ ⟨rfl, -⟩
        rfl
  | waitError hintno hcurrent hproc =>
      apply hanswers.of_new hages (fun v call => v = s.kernel.current ∧
        call = ⟨target s.kernel, none⟩) (fun _ => id) rfl
      · rintro v call ⟨hv, hvcall⟩
        have hvcall := (setCall_call ..).symm.trans hvcall
        simp only [hproc] at hv ⊢
        split_ifs at hv hvcall ⊢ with hvc
        · exact .inl ⟨hvc, (Option.some.inj hvcall).symm⟩
        · exact .inr ⟨⟨hv, hvcall⟩, rfl⟩
      · rintro v call ⟨rfl, rfl⟩
        constructor
        · simp only [hproc, if_true]
          rfl
        · intro life heq
          cases heq
      · rintro v v' call call' ⟨rfl, -⟩ ⟨rfl, -⟩
        rfl
  | collect p hintno htarget hne hzombie hcurrent hproc =>
      apply hanswers.of_new hages (fun v call => v = s.kernel.current ∧
        call = ⟨p, some (s.life p)⟩) (fun _ => id) rfl
      · rintro v call ⟨hv, hvcall⟩
        have hvcall := (setCall_call ..).symm.trans hvcall
        simp only [hproc] at hv ⊢
        split_ifs at hv hvcall ⊢ with hvc hvp
        · exact .inl ⟨hvc, (Option.some.inj hvcall).symm⟩
        · exact .inr ⟨⟨hv, hvcall⟩, rfl⟩
      · rintro v call ⟨rfl, rfl⟩
        constructor
        · simp only [hproc, if_true]
          exact hexited.zombie p hzombie
        · rintro life ⟨⟩
          refine ⟨not_gone (by rw [hzombie]; decide), .inr ⟨?_, ?_⟩⟩
          · exact (congrArg (LifeId.mk p) (setCall_born ..)).symm
          · simp [System.life, hproc, hne]
      · rintro v v' call call' ⟨rfl, -⟩ ⟨rfl, -⟩
        rfl
  | block p hintno htarget hne hlive hcurrent hproc =>
      apply hanswers.of_same hages (fun _ => id) rfl
      rintro v call ⟨hv, hvcall⟩
      have hvcall := (setCall_call ..).symm.trans ((setWaiter_call ..).symm.trans hvcall)
      simp only [hproc] at hv ⊢
      split_ifs at hv hvcall ⊢ with hvc hvp
      · exact ⟨⟨hv, hvcall⟩, rfl⟩
      · exact ⟨⟨hv, hvcall⟩, rfl⟩
  | killAlone p hintno hfound htarget hne hlive hwaiting hcurrent hproc =>
      apply hanswers.of_same hages (fun _ => id) rfl
      rintro v call ⟨hv, hvcall⟩
      have hvc : v ≠ s.kernel.current := by
        rintro rfl
        rw [hcall] at hvcall
        cases hvcall
      simp only [hproc, if_neg hvc] at hv ⊢
      split_ifs at hv ⊢ with hvp
      exact ⟨⟨hv, hvcall⟩, rfl⟩
  | killAwaited p w hintno hfound htarget hne hlive hpos hwaiting hother hcurrent hproc =>
      have hended : s.ended = some p := by simp [ended, hintno, hfound, htarget]
      have halone := hkill p hintno hended
      omega

/-! ## Runs -/

theorem Exited.save (h : Exited s) (trap : Trap) : Exited (s.save trap) := by
  apply h.of_same (.of_same (save_state trap) fun _ => rfl) rfl
  intro z hz
  exact ⟨(save_state trap z).symm.trans hz, rfl, save_exitStatus trap z⟩

theorem Exited.resume (h : Exited s) : Exited s.resume := by
  apply h.of_same (.of_same (fun _ => by rw [resume_kernel]) resume_life) resume_exits
  intro z hz
  rw [resume_kernel] at hz ⊢
  exact ⟨hz, resume_life z, rfl⟩

theorem Exited.run (h : Exited s) (next : Nat) :
    Exited { s with kernel := s.kernel.run next } :=
  h.of_same (.of_same (fun _ => rfl) fun _ => rfl) rfl fun _ hz => ⟨hz, rfl, rfl⟩

theorem Answers.save (h : Answers s) (hrun : Running s) (trap : Trap) :
    Answers (s.save trap) := by
  apply h.of_same (.of_same (save_state trap) fun _ => rfl) (fun _ => id) rfl
  rintro w call ⟨hw, hcall⟩
  have hne : w ≠ s.kernel.current := by
    rintro rfl
    have hnone := hrun.call
    change (s.lives s.kernel.current).call = some call at hcall
    rw [hnone] at hcall
    cases hcall
  rw [save_procArray, if_neg hne]
  exact ⟨⟨(save_state trap w).symm.trans hw, hcall⟩, rfl⟩

theorem Answers.run (h : Answers s) (next : Nat) :
    Answers { s with kernel := s.kernel.run next } :=
  h.of_same (.of_same (fun _ => rfl) fun _ => rfl) (fun _ => id) rfl
    fun _ _ hw => ⟨hw, rfl⟩

/-- The `sys_wait` of the process that runs now has returned. -/
theorem Answers.resume (h : Answers s) (hstate : s.kernel.cur.state = .runnable) :
    Answers s.resume := by
  have hages : Ages s s.resume := .of_same (fun _ => by rw [resume_kernel]) resume_life
  have hready : ∀ w call, Ready s.resume w call → w ≠ s.kernel.current ∧ Ready s w call := by
    rintro w call ⟨hw, hcall⟩
    rw [resume_kernel] at hw
    rw [resume_call] at hcall
    split_ifs at hcall with hne
    exact ⟨hne, hw, hcall⟩
  cases hcall : (s.lives s.kernel.current).call with
  | none =>
      apply h.of_same hages
      · simp
      · rw [resume_returns, hcall]
        rfl
      · intro w call hw
        rw [resume_kernel]
        exact ⟨(hready w call hw).2, rfl⟩
  | some call =>
      have hcur : Ready s s.kernel.current call := ⟨hstate, hcall⟩
      have hreturns : s.resume.returns = ⟨call, s.kernel.cur.registers.eax⟩ :: s.returns := by
        rw [resume_returns, hcall]
        rfl
      have hlist : s.resume.collected = call.process.toList ++ s.collected := by
        rw [collected, hreturns, List.filterMap_cons]
        cases call.process <;> rfl
      have hcollected : ∀ life, life ∈ s.resume.collected ↔
          call.process = some life ∨ life ∈ s.collected := by
        intro life
        rw [hlist, List.mem_append, Option.mem_toList]
      constructor
      · intro w c hw
        rw [resume_exits, resume_kernel]
        exact h.ready w c (hready w c hw).2
      · intro r hr
        rw [resume_exits]
        rw [hreturns] at hr
        rcases List.mem_cons.mp hr with rfl | hr
        · exact h.ready _ _ hcur
        · exact h.returned r hr
      · rw [hlist]
        cases hprocess : call.process with
        | none => exact h.unique
        | some life =>
            exact List.nodup_cons.mpr ⟨h.fresh _ _ life hcur hprocess, h.unique⟩
      · intro w c life hw hlife hmem
        obtain ⟨hne, hw⟩ := hready w c hw
        rcases (hcollected life).mp hmem with hsame | hmem
        · exact hne (h.apart _ _ _ _ life hw hcur hlife hsame)
        · exact h.fresh w c life hw hlife hmem
      · intro w w' c c' life hw hw'
        exact h.apart w w' c c' life (hready w c hw).2 (hready w' c' hw').2
      · intro life hmem
        rcases (hcollected life).mp hmem with hsame | hmem
        · exact (h.gone_ready _ _ life hcur hsame).ages hages
        · exact (h.gone life hmem).ages hages
      · intro w c life hw hlife
        exact (h.gone_ready w c life (hready w c hw).2 hlife).ages hages

/-- What holds in every run without `sys_kill`. -/
structure Delivers (s : System) : Prop where
  inv : Inv s
  killed : s.killed = []
  exited : Exited s
  answers : Answers s

theorem Effect.killed (heffect : Effect s s₁)
    (hkill : s.kernel.cur.registers.intno.toNat ≠ 54) : s₁.killed = s.killed := by
  cases heffect with
  | killAlone p hintno hfound htarget hne hlive hwaiting hcurrent hproc =>
      exact absurd hintno hkill
  | killAwaited p w hintno hfound htarget hne hlive hpos hwaiting hother hcurrent hproc =>
      exact absurd hintno hkill
  | _ => rfl

theorem Delivers.start (entry : BitVec 32) (memory : Memory) :
    Delivers (.start entry memory) where
  inv := Inv.start entry memory
  killed := rfl
  exited := by
    refine ⟨fun _ hmem => absurd hmem List.not_mem_nil, List.nodup_nil, ?_⟩
    intro z hz
    simp only [System.start, Miniproc.start] at hz
    split_ifs at hz
  answers := by
    refine ⟨?_, fun _ hmem => absurd hmem List.not_mem_nil, List.nodup_nil, ?_, ?_,
      fun _ hmem => absurd hmem List.not_mem_nil, ?_⟩
    · rintro w call ⟨-, ⟨⟩⟩
    · rintro w call life ⟨-, ⟨⟩⟩
    · rintro w w' call call' life ⟨-, ⟨⟩⟩
    · rintro w call life ⟨-, ⟨⟩⟩

theorem Delivers.step (h : Delivers s) (hkill : trap.registers.intno.toNat ≠ 54)
    (hstep : s.step trap = some s') : Delivers s' := by
  have hspared : Spared (s.save trap) := .of_none h.killed
  have hrun := h.inv.running.save trap
  have hwaits := h.inv.waits.save trap
  have hno : (s.save trap).kernel.cur.registers.intno.toNat ≠ 54 := by rwa [save_cur]
  have halone : KillsAlone (s.save trap) := fun _ hintno => absurd hintno hno
  have hinv := h.inv.step hspared hstep
  obtain ⟨s₁, next, heffect, -, hnext, rfl⟩ := step_effect h.inv.wf h.inv.running hstep
  have hexited := heffect.exited hrun hwaits hspared (h.exited.save trap)
  have hanswers := heffect.answers hrun hwaits hspared (h.exited.save trap)
    (h.answers.save h.inv.running trap) halone
  constructor
  · exact hinv
  · rw [resume_killed]
    exact (heffect.killed hno).trans h.killed
  · exact (hexited.run next).resume
  · exact (hanswers.run next).resume hnext

theorem Delivers.of_reaches {entry : BitVec 32} {memory : Memory}
    (h : Reaches System.step (fun trap _ => trap.registers.intno.toNat ≠ 54)
      (.start entry memory) s) : Delivers s :=
  h.invariant (Delivers.start entry memory) fun _ _ _ hinv hkill hstep =>
    hinv.step hkill hstep

/-- How a step without `sys_kill` ends a wait. -/
structure Rendezvous (trap : Trap) (s s' : System) : Prop where
  /-- A process is woken by the exit of the process that it waits for. -/
  woken : ∀ w, (s.kernel.procArray w).state = .blocked →
    (s'.kernel.procArray w).state = .runnable → trap.registers.intno.toNat = 51 ∧
      (s.lives w).call = some ⟨s.kernel.current, some (s.life s.kernel.current)⟩
  /-- A zombie stays until a `sys_wait` has its status. -/
  zombie : ∀ z, (s.kernel.procArray z).state = .zombie →
    (s'.kernel.procArray z).state = .zombie ∨
      trap.registers.intno.toNat = 52 ∧ trap.registers.eax.toInt = z ∧
        (s'.kernel.procArray z).state = .empty ∧
        (s'.kernel.procArray s.kernel.current).registers.eax =
          (s.kernel.procArray z).exitStatus

theorem Delivers.rendezvous (h : Delivers s) (hkill : trap.registers.intno.toNat ≠ 54)
    (hstep : s.step trap = some s') : Rendezvous trap s s' := by
  have hspared : Spared (s.save trap) := .of_none h.killed
  have hrun := h.inv.running.save trap
  have hwaits := h.inv.waits.save trap
  have hintno : (s.save trap).kernel.cur.registers = trap.registers := by rw [save_cur]
  obtain ⟨s₁, next, heffect, -, -, rfl⟩ := step_effect h.inv.wf h.inv.running hstep
  constructor
  · intro w hblocked hwoken
    rw [resume_kernel] at hwoken
    obtain ⟨q, hended, hawaits⟩ := heffect.wakes hrun hwaits hspared
      ((save_state trap w).trans hblocked) hwoken
    unfold ended at hended
    split at hended
    · rename_i hexit
      rw [hintno] at hexit
      obtain rfl := Option.some.inj hended
      exact ⟨hexit, hawaits.call⟩
    · rename_i hno
      rw [hintno] at hno
      exact absurd hno hkill
    · cases hended
  · intro z hzombie
    rw [resume_kernel]
    rcases heffect.zombie hrun hwaits hspared ((save_state trap z).trans hzombie) with
      ⟨hstays, -⟩ | ⟨hempty, ⟨hwait, htarget, heax⟩ | hno⟩
    · exact .inl hstays
    · right
      rw [save_exitStatus] at heax
      rw [hintno] at hwait
      rw [target, hintno] at htarget
      exact ⟨hwait, htarget, hempty, heax⟩
    · rw [hintno] at hno
      exact absurd hno hkill

/-- Without `sys_kill` every `sys_wait` that returns has the status that its process
gave to `sys_exit`, or -1 if there was none; no status is returned twice; and a
step wakes only the waiter of a process that exits and reuses no zombie. -/
theorem statuses_delivered {entry : BitVec 32} {memory : Memory}
    (hrun : Reaches System.step (fun trap _ => trap.registers.intno.toNat ≠ 54)
      (.start entry memory) s) :
    (∀ r ∈ s.returns, r.call.Answered s.exits r.value) ∧ (s.exits.map Prod.fst).Nodup ∧
      s.collected.Nodup ∧
      ∀ trap s', trap.registers.intno.toNat ≠ 54 → s.step trap = some s' →
        Rendezvous trap s s' := by
  have h := Delivers.of_reaches hrun
  exact ⟨h.answers.returned, h.exited.once, h.answers.unique,
    fun _ _ hkill hstep => h.rendezvous hkill hstep⟩

/-- Process 1 creates process 2, waits for it and gets its status. -/
theorem statuses_delivered_exit :
    ∃ s, runEvents System.step [callWith 49 0, callWith 52 2, callWith 51 7]
        (.start 0 fun _ => 0) = some s ∧
      s.returns = [⟨⟨2, some ⟨2, 1⟩⟩, 7⟩] ∧
      ∀ r ∈ s.returns, r.call.Answered s.exits r.value := by
  have hrun : ∃ s, runEvents System.step [callWith 49 0, callWith 52 2, callWith 51 7]
        (.start 0 fun _ => 0) = some s ∧ s.returns = [⟨⟨2, some ⟨2, 1⟩⟩, 7⟩] ∧
      Reaches System.step (fun trap _ => trap.registers.intno.toNat ≠ 54)
        (.start 0 fun _ => 0) s :=
    ⟨_, rfl, rfl, ((Reaches.start.next (callWith 49 0) (by decide) rfl).next
      (callWith 52 2) (by decide) rfl).next (callWith 51 7) (by decide) rfl⟩
  obtain ⟨s, hs, hreturns, hreaches⟩ := hrun
  exact ⟨s, hs, hreturns, (statuses_delivered hreaches).1⟩

end System

end Cs111Labs.Miniproc
