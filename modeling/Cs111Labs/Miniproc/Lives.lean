import Cs111Labs.Foundation.Run
import Cs111Labs.Miniproc.Kernel

/-!
# The lives of the MiniprocOS processes

The kernel with what is known about the processes in its descriptors: which
life of a descriptor this is, the `sys_wait` that a process has not returned
from, and the exit statuses given and returned so far.
-/

namespace Cs111Labs.Miniproc

open Foundation

/-- An application has called the kernel with these registers and this memory. -/
structure Trap where
  registers : Registers
  memory : Memory

/-- A process: the descriptor, and which of its lives. -/
structure LifeId where
  pid : Nat
  born : Nat
  deriving DecidableEq, Repr

/-- A call of `sys_wait`; `none`: there was no such process. -/
structure WaitCall where
  target : Int
  process : Option LifeId
  deriving DecidableEq, Repr

/-- What is known about the process in a descriptor. -/
structure Life where
  born : Nat := 0
  /-- The `sys_wait` that it has not returned from. -/
  call : Option WaitCall := none
  /-- The process that has blocked last in a `sys_wait` for it. -/
  waiter : Option LifeId := none
  deriving DecidableEq, Repr

/-- A value that a `sys_wait` has returned. -/
structure Return where
  call : WaitCall
  value : BitVec 32
  deriving DecidableEq, Repr

structure System where
  kernel : Kernel
  lives : Nat → Life := fun _ => {}
  /-- The arguments of `sys_exit`. -/
  exits : List (LifeId × BitVec 32) := []
  returns : List Return := []
  killed : List LifeId := []

namespace System

/-- The process in a descriptor. -/
def life (s : System) (pid : Nat) : LifeId := ⟨pid, (s.lives pid).born⟩

def setLife (s : System) (pid : Nat) (life : Life) : System :=
  { s with lives := Function.update s.lives pid life }

/-- `current->p_registers = *reg` -/
def save (trap : Trap) (s : System) : System :=
  let k := { s.kernel with memory := trap.memory }
  { s with kernel := k.modify k.current fun p => { p with registers := trap.registers } }

/-- A process is created. -/
def noteCreate (s : System) : System :=
  match s.kernel.firstEmpty with
  | none => s
  | some pid => s.setLife pid { born := (s.lives pid).born + 1 }

def noteExit (s : System) : System :=
  { s with exits := (s.life s.kernel.current, s.kernel.cur.registers.eax) :: s.exits }

def noteWait (s : System) : System :=
  let p := (target s.kernel).toNat
  let c := s.kernel.current
  let process := if noSuchProcess s.kernel then none else some (s.life p)
  let called := s.setLife c { s.lives c with call := some ⟨target s.kernel, process⟩ }
  if noSuchProcess s.kernel ∨ (s.kernel.procArray p).state = .zombie then called
  else called.setLife p { called.lives p with waiter := some (s.life c) }

def noteKill (s : System) : System :=
  if noSuchProcess s.kernel then s
  else { s with killed := s.life (target s.kernel).toNat :: s.killed }

/-- What the call adds to the knowledge. -/
def note (s : System) : System :=
  match s.kernel.cur.registers.intno.toNat with
  | 49 => s.noteCreate
  | 51 => s.noteExit
  | 52 => s.noteWait
  | 53 => s.noteCreate
  | 54 => s.noteKill
  | _ => s

/-- The current process goes on, and returns from its `sys_wait` if it has called one. -/
def resume (s : System) : System :=
  let c := s.kernel.current
  match (s.lives c).call with
  | none => s
  | some call =>
      { s.setLife c { s.lives c with call := none } with
        returns := ⟨call, s.kernel.cur.registers.eax⟩ :: s.returns }

def step (trap : Trap) (s : System) : Option System :=
  (interrupt trap.registers { s.kernel with memory := trap.memory }).map fun k =>
    resume { (s.save trap).note with kernel := k }

def start (entry : BitVec 32) (memory : Memory) : System where
  kernel := Miniproc.start entry memory

/-- A call from an application whose stack is empty. -/
def callWith (intno eax : BitVec 32) : Trap where
  registers := { intno := intno, eax := eax, esp := stackTop 1 }
  memory _ := 0

section Resume

variable {s : System}

@[simp] theorem resume_kernel : s.resume.kernel = s.kernel := by
  unfold resume
  dsimp only
  split <;> rfl

@[simp] theorem resume_exits : s.resume.exits = s.exits := by
  unfold resume
  dsimp only
  split <;> rfl

@[simp] theorem resume_killed : s.resume.killed = s.killed := by
  unfold resume
  dsimp only
  split <;> rfl

theorem resume_lives : s.resume.lives = Function.update s.lives s.kernel.current
    { s.lives s.kernel.current with call := none } := by
  unfold resume
  dsimp only
  split
  · rename_i hcall
    rw [← hcall]
    exact (Function.update_eq_self _ _).symm
  · rfl

theorem resume_returns : s.resume.returns = ((s.lives s.kernel.current).call.map
    fun call => Return.mk call s.kernel.cur.registers.eax).toList ++ s.returns := by
  unfold resume
  dsimp only
  split
  · rename_i hcall
    rw [hcall]
    rfl
  · rename_i call hcall
    rw [hcall]
    rfl

theorem resume_call (i : Nat) : (s.resume.lives i).call =
    if i = s.kernel.current then none else (s.lives i).call := by
  rw [resume_lives, Function.update_apply]
  split_ifs <;> rfl

@[simp] theorem resume_waiter (i : Nat) :
    (s.resume.lives i).waiter = (s.lives i).waiter := by
  rw [resume_lives, Function.update_apply]
  split_ifs with hi
  · rw [hi]
  · rfl

@[simp] theorem resume_life (i : Nat) : s.resume.life i = s.life i := by
  simp only [life, resume_lives, Function.update_apply]
  split_ifs with hi
  · rw [hi]
  · rfl

end Resume

/-! ## What a call does -/

def setCall (s : System) (pid : Nat) (call : Option WaitCall) : System :=
  s.setLife pid { s.lives pid with call := call }

def setWaiter (s : System) (pid : Nat) (life : LifeId) : System :=
  s.setLife pid { s.lives pid with waiter := some life }

@[simp] theorem setCall_born (s : System) (pid i : Nat) (call : Option WaitCall) :
    ((s.setCall pid call).lives i).born = (s.lives i).born := by
  simp only [setCall, setLife, Function.update_apply]
  split_ifs with hi
  · rw [hi]
  · rfl

@[simp] theorem setCall_waiter (s : System) (pid i : Nat) (call : Option WaitCall) :
    ((s.setCall pid call).lives i).waiter = (s.lives i).waiter := by
  simp only [setCall, setLife, Function.update_apply]
  split_ifs with hi
  · rw [hi]
  · rfl

theorem setCall_call (s : System) (pid i : Nat) (call : Option WaitCall) :
    ((s.setCall pid call).lives i).call = if i = pid then call else (s.lives i).call := by
  simp only [setCall, setLife, Function.update_apply]
  split_ifs <;> rfl

@[simp] theorem setWaiter_born (s : System) (pid i : Nat) (life : LifeId) :
    ((s.setWaiter pid life).lives i).born = (s.lives i).born := by
  simp only [setWaiter, setLife, Function.update_apply]
  split_ifs with hi
  · rw [hi]
  · rfl

@[simp] theorem setWaiter_call (s : System) (pid i : Nat) (life : LifeId) :
    ((s.setWaiter pid life).lives i).call = (s.lives i).call := by
  simp only [setWaiter, setLife, Function.update_apply]
  split_ifs with hi
  · rw [hi]
  · rfl

theorem setWaiter_waiter (s : System) (pid i : Nat) (life : LifeId) :
    ((s.setWaiter pid life).lives i).waiter =
      if i = pid then some life else (s.lives i).waiter := by
  simp only [setWaiter, setLife, Function.update_apply]
  split_ifs <;> rfl

/-- The call of the current process, before another one is run. -/
inductive Effect (s : System) : System → Prop
  | reply {k : Kernel} (value : BitVec 32) (hcurrent : k.current = s.kernel.current)
      (hproc : ∀ i, k.procArray i = if i = s.kernel.current then s.kernel.cur.setEax value
        else s.kernel.procArray i) :
      Effect s { s with kernel := k }
  | create {k : Kernel} (p : Nat)
      (hintno : s.kernel.cur.registers.intno.toNat = 49 ∨
        s.kernel.cur.registers.intno.toNat = 53)
      (hp : 0 < p ∧ p < nprocs) (hempty : (s.kernel.procArray p).state = .empty)
      (hk : Creates s.kernel k p) :
      Effect s { s.setLife p { born := (s.lives p).born + 1 } with kernel := k }
  | exitAlone {k : Kernel} (hintno : s.kernel.cur.registers.intno.toNat = 51)
      (hwaiting : ¬ 0 < s.kernel.cur.waiting) (hcurrent : k.current = s.kernel.current)
      (hproc : ∀ i, k.procArray i = if i = s.kernel.current then { s.kernel.cur with
          state := .zombie, exitStatus := s.kernel.cur.registers.eax }
        else s.kernel.procArray i) :
      Effect s { s.noteExit with kernel := k }
  | exitAwaited {k : Kernel} (w : Nat) (hintno : s.kernel.cur.registers.intno.toNat = 51)
      (hpos : 0 < w) (hwaiting : s.kernel.cur.waiting = w) (hne : w ≠ s.kernel.current)
      (hcurrent : k.current = s.kernel.current)
      (hproc : ∀ i, k.procArray i = if i = s.kernel.current then { s.kernel.cur with
          state := .empty, exitStatus := s.kernel.cur.registers.eax, waiting := -1 }
        else if i = w then { (s.kernel.procArray i).setEax s.kernel.cur.registers.eax with
          state := .runnable }
        else s.kernel.procArray i) :
      Effect s { s.noteExit with kernel := k }
  | waitError {k : Kernel} (hintno : s.kernel.cur.registers.intno.toNat = 52)
      (hcurrent : k.current = s.kernel.current)
      (hproc : ∀ i, k.procArray i = if i = s.kernel.current then s.kernel.cur.setEax (-1)
        else s.kernel.procArray i) :
      Effect s { s.setCall s.kernel.current (some ⟨target s.kernel, none⟩) with kernel := k }
  | collect {k : Kernel} (p : Nat) (hintno : s.kernel.cur.registers.intno.toNat = 52)
      (htarget : target s.kernel = p) (hne : p ≠ s.kernel.current)
      (hzombie : (s.kernel.procArray p).state = .zombie)
      (hcurrent : k.current = s.kernel.current)
      (hproc : ∀ i, k.procArray i = if i = s.kernel.current then
          { s.kernel.cur.setEax (s.kernel.procArray p).exitStatus with state := .runnable }
        else if i = p then { s.kernel.procArray i with state := .empty }
        else s.kernel.procArray i) :
      Effect s { s.setCall s.kernel.current (some ⟨p, some (s.life p)⟩) with kernel := k }
  | block {k : Kernel} (p : Nat) (hintno : s.kernel.cur.registers.intno.toNat = 52)
      (htarget : target s.kernel = p) (hne : p ≠ s.kernel.current)
      (hlive : (s.kernel.procArray p).state = .runnable ∨
        (s.kernel.procArray p).state = .blocked)
      (hcurrent : k.current = s.kernel.current)
      (hproc : ∀ i, k.procArray i = if i = s.kernel.current then
          { s.kernel.cur with state := .blocked }
        else if i = p then { s.kernel.procArray i with waiting := s.kernel.current }
        else s.kernel.procArray i) :
      Effect s { (s.setCall s.kernel.current (some ⟨p, some (s.life p)⟩)).setWaiter p
        (s.life s.kernel.current) with kernel := k }
  | killAlone {k : Kernel} (p : Nat) (hintno : s.kernel.cur.registers.intno.toNat = 54)
      (hfound : ¬ noSuchProcess s.kernel) (htarget : target s.kernel = p)
      (hne : p ≠ s.kernel.current) (hstate : (s.kernel.procArray p).state ≠ .empty)
      (hwaiting : ¬ 0 < (s.kernel.procArray p).waiting)
      (hcurrent : k.current = s.kernel.current)
      (hproc : ∀ i, k.procArray i = if i = s.kernel.current then s.kernel.cur.setEax 0
        else if i = p then { s.kernel.procArray i with state := .empty }
        else s.kernel.procArray i) :
      Effect s { s with kernel := k, killed := s.life p :: s.killed }
  | killAwaited {k : Kernel} (p w : Nat)
      (hintno : s.kernel.cur.registers.intno.toNat = 54)
      (hfound : ¬ noSuchProcess s.kernel) (htarget : target s.kernel = p)
      (hne : p ≠ s.kernel.current) (hstate : (s.kernel.procArray p).state ≠ .empty)
      (hpos : 0 < w) (hwaiting : (s.kernel.procArray p).waiting = w) (hother : w ≠ p)
      (hcurrent : k.current = s.kernel.current)
      (hproc : ∀ i, k.procArray i = if i = s.kernel.current then s.kernel.cur.setEax 0
        else if i = p then { s.kernel.procArray i with state := .empty, waiting := -1 }
        else if i = w then { s.kernel.procArray i with state := .runnable }
        else s.kernel.procArray i) :
      Effect s { s with kernel := k, killed := s.life p :: s.killed }

/-- What holds of the descriptors in every run. -/
structure Wf (s : System) : Prop where
  pid : ∀ i, (s.kernel.procArray i).pid = i
  slot : ∀ i, (s.kernel.procArray i).state ≠ .empty → 0 < i ∧ i < nprocs
  waiting : ∀ q, 0 < (s.kernel.procArray q).waiting →
    (s.kernel.procArray q).waiting ≠ q ∧ (s.kernel.procArray q).waiting < nprocs

/-- The current process runs. -/
structure Running (s : System) : Prop where
  state : s.kernel.cur.state = .runnable
  call : (s.lives s.kernel.current).call = none

section Effects

variable {s : System}

theorem setEax_self (p : Process) : p.setEax p.registers.eax = p := rfl

theorem effect_same : Effect s s :=
  .reply (k := s.kernel) s.kernel.cur.registers.eax rfl fun i => by
    split_ifs with hi
    · rw [hi, setEax_self]
      rfl
    · rfl

theorem firstEmpty_ne (hrun : Running s) {p : Nat} (h : s.kernel.firstEmpty = some p) :
    p ≠ s.kernel.current := by
  rintro rfl
  have hempty := (Kernel.firstEmpty_spec h).2.2
  have hstate := hrun.state
  rw [Kernel.cur, hempty] at hstate
  cases hstate

theorem effect_fork (hrun : Running s)
    (hintno : s.kernel.cur.registers.intno.toNat = 49) :
    Effect s { s.noteCreate with kernel := sysFork s.kernel } := by
  cases h : s.kernel.firstEmpty with
  | none =>
      simp only [noteCreate, h]
      exact .reply (-1) sysFork_current (sysFork_full h)
  | some p =>
      obtain ⟨hpos, hlt, hempty⟩ := Kernel.firstEmpty_spec h
      simp only [noteCreate, h]
      exact .create p (.inl hintno) ⟨hpos, hlt⟩ hempty
        (sysFork_creates h (firstEmpty_ne hrun h))

theorem sysFork_state (hrun : Running s) :
    (sysFork s.kernel).cur.state = .runnable := by
  cases h : s.kernel.firstEmpty with
  | none =>
      rw [Kernel.cur, sysFork_full h, sysFork_current, if_pos rfl]
      exact hrun.state
  | some p =>
      rw [(sysFork_creates h (firstEmpty_ne hrun h)).caller]
      exact hrun.state

theorem effect_newthread (hrun : Running s)
    (hintno : s.kernel.cur.registers.intno.toNat = 53) :
    Effect s { s.noteCreate with kernel := sysNewthread s.kernel } := by
  cases h : s.kernel.firstEmpty with
  | none =>
      simp only [noteCreate, h, sysNewthread_full h]
      exact effect_same
  | some p =>
      obtain ⟨hpos, hlt, hempty⟩ := Kernel.firstEmpty_spec h
      simp only [noteCreate, h]
      exact .create p (.inr hintno) ⟨hpos, hlt⟩ hempty
        (sysNewthread_creates h (firstEmpty_ne hrun h))

theorem effect_exit (h : Wf s) (hintno : s.kernel.cur.registers.intno.toNat = 51) :
    Effect s { s.noteExit with kernel := sysExit s.kernel } := by
  by_cases hwaiting : 0 < s.kernel.cur.waiting
  · obtain ⟨w, hw⟩ : ∃ w : Nat, s.kernel.cur.waiting = w := ⟨_, (Int.toNat_of_nonneg
      hwaiting.le).symm⟩
    have hne : s.kernel.cur.waiting.toNat ≠ s.kernel.current := by
      have hother := (h.waiting s.kernel.current hwaiting).1
      change s.kernel.cur.waiting ≠ s.kernel.current at hother
      omega
    have hproc := sysExit_awaited hwaiting hne
    have hnat : s.kernel.cur.waiting.toNat = w := by omega
    rw [hnat] at hne hproc
    exact .exitAwaited w hintno (by omega) hw hne sysExit_current hproc
  · exact .exitAlone hintno hwaiting sysExit_current (sysExit_alone hwaiting)

theorem effect_wait (h : Wf s) (hintno : s.kernel.cur.registers.intno.toNat = 52) :
    Effect s { s.noteWait with kernel := sysWait s.kernel } := by
  have hpid : s.kernel.cur.pid = s.kernel.current := h.pid _
  by_cases herror : noSuchProcess s.kernel
  · simp only [noteWait, herror, if_true, true_or]
    exact .waitError hintno sysWait_current (sysWait_error herror)
  · obtain ⟨hpos, -, hne, hstate⟩ := target_ne herror hpid
    obtain ⟨p, hp⟩ : ∃ p : Nat, target s.kernel = p := ⟨_, (Int.toNat_of_nonneg hpos.le).symm⟩
    have hzombie := sysWait_zombie herror hpid
    have hblock := sysWait_block herror hpid
    have hnat : (target s.kernel).toNat = p := by omega
    rw [hnat] at hne hstate hzombie hblock
    simp only [noteWait, herror, if_false, false_or, hnat]
    rw [hp]
    split_ifs with hz
    · exact .collect p hintno hp hne hz sysWait_current (hzombie hz)
    · have hlive : (s.kernel.procArray p).state = .runnable ∨
          (s.kernel.procArray p).state = .blocked := by
        cases hs : (s.kernel.procArray p).state <;> simp_all
      exact .block p hintno hp hne hlive sysWait_current (hblock hz)

theorem effect_kill (h : Wf s) (hrun : Running s)
    (hintno : s.kernel.cur.registers.intno.toNat = 54) :
    Effect s { s.noteKill with kernel := sysKill s.kernel } := by
  have hpid : s.kernel.cur.pid = s.kernel.current := h.pid _
  by_cases herror : noSuchProcess s.kernel
  · simp only [noteKill, herror, if_true]
    exact .reply (-1) sysKill_current (sysKill_error herror)
  · obtain ⟨hpos, -, hne, hstate⟩ := target_ne herror hpid
    obtain ⟨p, hp⟩ : ∃ p : Nat, target s.kernel = p := ⟨_, (Int.toNat_of_nonneg hpos.le).symm⟩
    have halone := sysKill_alone herror hpid
    have hawaited := sysKill_awaited herror hpid hrun.state
    have hnat : (target s.kernel).toNat = p := by omega
    rw [hnat] at hne hstate halone hawaited
    simp only [noteKill, herror, if_false, hnat]
    by_cases hwaiting : 0 < (s.kernel.procArray p).waiting
    · obtain ⟨w, hw⟩ : ∃ w : Nat, (s.kernel.procArray p).waiting = w :=
        ⟨_, (Int.toNat_of_nonneg hwaiting.le).symm⟩
      have hother := (h.waiting p hwaiting).1
      have hnat' : (s.kernel.procArray p).waiting.toNat = w := by omega
      rw [hnat'] at hawaited
      have hwp : w ≠ p := by omega
      exact .killAwaited p w hintno herror hp hne hstate (by omega) hw hwp sysKill_current
        (hawaited hwaiting hwp)
    · exact .killAlone p hintno herror hp hne hstate hwaiting sysKill_current (halone hwaiting)

theorem save_procArray (trap : Trap) (s : System) (i : Nat) :
    (s.save trap).kernel.procArray i =
      if i = s.kernel.current then { s.kernel.cur with registers := trap.registers }
      else s.kernel.procArray i := by
  simp only [save, modify_procArray]
  split_ifs with hi
  · rw [hi]
    rfl
  · rfl

theorem save_cur (trap : Trap) (s : System) :
    (s.save trap).kernel.cur = { s.kernel.cur with registers := trap.registers } := by
  simp [Kernel.cur, save]

@[simp] theorem save_pid (trap : Trap) (i : Nat) :
    ((s.save trap).kernel.procArray i).pid = (s.kernel.procArray i).pid := by
  rw [save_procArray]
  split_ifs with hi
  · rw [hi]
    rfl
  · rfl

@[simp] theorem save_state (trap : Trap) (i : Nat) :
    ((s.save trap).kernel.procArray i).state = (s.kernel.procArray i).state := by
  rw [save_procArray]
  split_ifs with hi
  · rw [hi]
    rfl
  · rfl

@[simp] theorem save_exitStatus (trap : Trap) (i : Nat) :
    ((s.save trap).kernel.procArray i).exitStatus = (s.kernel.procArray i).exitStatus := by
  rw [save_procArray]
  split_ifs with hi
  · rw [hi]
    rfl
  · rfl

@[simp] theorem save_waiting (trap : Trap) (i : Nat) :
    ((s.save trap).kernel.procArray i).waiting = (s.kernel.procArray i).waiting := by
  rw [save_procArray]
  split_ifs with hi
  · rw [hi]
    rfl
  · rfl

theorem Wf.save (h : Wf s) (trap : Trap) : Wf (s.save trap) where
  pid i := (save_pid trap i).trans (h.pid i)
  slot i hi := h.slot i (save_state trap i ▸ hi)
  waiting q hq := by
    rw [save_waiting] at hq ⊢
    exact h.waiting q hq

theorem Running.save (h : Running s) (trap : Trap) : Running (s.save trap) where
  state := by
    rw [save_cur]
    exact h.state
  call := h.call

/-- A step is a call and the choice of a runnable process. -/
theorem step_effect (h : Wf s) (hrun : Running s) {trap : Trap} {s' : System}
    (hstep : s.step trap = some s') :
    ∃ s₁ next, Effect (s.save trap) s₁ ∧ next < nprocs ∧
      (s₁.kernel.procArray next).state = .runnable ∧
      s' = resume { s₁ with kernel := s₁.kernel.run next } := by
  obtain ⟨k', hk', rfl⟩ := Option.map_eq_some_iff.mp hstep
  have hsaved := h.save trap
  have hruns := hrun.save trap
  have hintno : (s.save trap).kernel.cur.registers.intno = trap.registers.intno := by
    rw [save_cur]
  change interrupt trap.registers { s.kernel with memory := trap.memory } = some k' at hk'
  rw [interrupt_eq (rfl : _ = (s.save trap).kernel)] at hk'
  generalize s.save trap = saved at *
  -- the two calls that go on with the current process
  have hcontinue : ∀ k, k.current = saved.kernel.current →
      Effect saved { saved.note with kernel := k } → k.cur.state = .runnable →
      some k = some k' → ∃ s₁ next, Effect saved s₁ ∧ next < nprocs ∧
        (s₁.kernel.procArray next).state = .runnable ∧
        resume { saved.note with kernel := k' } =
          resume { s₁ with kernel := s₁.kernel.run next } := by
    rintro k hcurrent heffect hstate hk
    obtain rfl := Option.some.inj hk
    refine ⟨_, k.current, heffect, ?_, hstate, rfl⟩
    rw [hcurrent]
    have hslot := hsaved.slot saved.kernel.current
    have hstate := hruns.state
    rw [Kernel.cur] at hstate
    rw [hstate] at hslot
    exact (hslot (by decide)).2
  have hschedule : ∀ k, Effect saved { saved.note with kernel := k } →
      schedule k = some k' → ∃ s₁ next, Effect saved s₁ ∧ next < nprocs ∧
        (s₁.kernel.procArray next).state = .runnable ∧
        resume { saved.note with kernel := k' } =
          resume { s₁ with kernel := s₁.kernel.run next } := by
    intro k heffect hk
    obtain ⟨next, hlt, hrunnable, rfl⟩ := schedule_eq_some hk
    exact ⟨_, next, heffect, hlt, hrunnable, rfl⟩
  rw [← hintno] at hk'
  split at hk' <;> rename_i hno
  · have hnote : saved.note = saved := by simp [note, hno]
    apply hcontinue (sysGetpid saved.kernel) rfl _ _ hk'
    · rw [hnote]
      exact .reply _ rfl (sysGetpid_procArray saved.kernel)
    · simp [Kernel.cur, sysGetpid, Process.setEax]
      exact hruns.state
  · have hnote : saved.note = saved.noteCreate := by simp [note, hno]
    have heffect := effect_fork hruns hno
    rw [← hnote] at heffect
    exact hcontinue _ sysFork_current heffect (sysFork_state hruns) hk'
  · have hnote : saved.note = saved := by simp [note, hno]
    apply hschedule _ _ hk'
    rw [hnote]
    exact effect_same
  · have hnote : saved.note = saved.noteExit := by simp [note, hno]
    have heffect := effect_exit hsaved hno
    rw [← hnote] at heffect
    exact hschedule _ heffect hk'
  · have hnote : saved.note = saved.noteWait := by simp [note, hno]
    have heffect := effect_wait hsaved hno
    rw [← hnote] at heffect
    exact hschedule _ heffect hk'
  · have hnote : saved.note = saved.noteCreate := by simp [note, hno]
    have heffect := effect_newthread hruns hno
    rw [← hnote] at heffect
    exact hschedule _ heffect hk'
  · have hnote : saved.note = saved.noteKill := by simp [note, hno]
    have heffect := effect_kill hsaved hruns hno
    rw [← hnote] at heffect
    exact hschedule _ heffect hk'
  · cases hk'

end Effects

end System

end Cs111Labs.Miniproc
