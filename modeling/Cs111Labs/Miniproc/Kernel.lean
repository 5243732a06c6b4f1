import Mathlib.Tactic

/-!
# The MiniprocOS kernel

`interrupt()` with its system calls and `schedule()`.  Between two interrupts
the current process runs and leaves the registers and the memory as it likes.
-/

namespace Cs111Labs.Miniproc

/-- `NPROCS`; the descriptor 0 is not used. -/
def nprocs : Nat := 16

/-- `PROC1_STACK_ADDR` -/
def proc1StackAddr : BitVec 32 := 0x280000

/-- `PROC_STACK_SIZE` -/
def procStackSize : BitVec 32 := 0x040000

/-- `procstate_t` -/
inductive ProcState where
  | empty
  | runnable
  | blocked
  | zombie
  deriving DecidableEq, Repr

/-- `registers_t` without its padding. -/
structure Registers where
  edi : BitVec 32 := 0
  esi : BitVec 32 := 0
  ebp : BitVec 32 := 0
  originalEsp : BitVec 32 := 0
  ebx : BitVec 32 := 0
  edx : BitVec 32 := 0
  ecx : BitVec 32 := 0
  eax : BitVec 32 := 0
  es : BitVec 16 := 0
  ds : BitVec 16 := 0
  intno : BitVec 32 := 0
  err : BitVec 32 := 0
  eip : BitVec 32 := 0
  cs : BitVec 16 := 0
  eflags : BitVec 32 := 0
  esp : BitVec 32 := 0
  ss : BitVec 16 := 0
  deriving DecidableEq, Repr

/-- `process_t` -/
structure Process where
  pid : Nat
  registers : Registers := {}
  state : ProcState := .empty
  exitStatus : BitVec 32 := 0
  waiting : Int := 0
  deriving DecidableEq, Repr

abbrev Memory := BitVec 32 → UInt8

structure Kernel where
  procArray : Nat → Process
  /-- `current` points to this descriptor. -/
  current : Nat
  memory : Memory

namespace Process

def setEax (p : Process) (value : BitVec 32) : Process :=
  { p with registers := { p.registers with eax := value } }

variable {p : Process} {value : BitVec 32}

@[simp] theorem setEax_pid : (p.setEax value).pid = p.pid := rfl

@[simp] theorem setEax_state : (p.setEax value).state = p.state := rfl

@[simp] theorem setEax_exitStatus : (p.setEax value).exitStatus = p.exitStatus := rfl

@[simp] theorem setEax_waiting : (p.setEax value).waiting = p.waiting := rfl

@[simp] theorem setEax_eax : (p.setEax value).registers.eax = value := rfl

end Process

namespace Kernel

def modify (k : Kernel) (pid : Nat) (f : Process → Process) : Kernel :=
  { k with procArray := Function.update k.procArray pid (f (k.procArray pid)) }

/-- `run(&proc_array[pid])` -/
def run (k : Kernel) (pid : Nat) : Kernel := { k with current := pid }

/-- `*current` -/
def cur (k : Kernel) : Process := k.procArray k.current

/-- The first empty descriptor that a loop from 1 finds. -/
def firstEmpty (k : Kernel) : Option Nat :=
  (List.range' 1 (nprocs - 1)).find? fun pid => (k.procArray pid).state = .empty

end Kernel

/-! ## The first process -/

/-- `special_registers_init`, with the entry point and the stack of process 1. -/
def firstRegisters (entry : BitVec 32) : Registers where
  cs := 0x18 ||| 3
  ds := 0x20 ||| 3
  es := 0x20 ||| 3
  ss := 0x20 ||| 3
  eip := entry
  esp := proc1StackAddr + procStackSize

/-- `start`, with the loaded application. -/
def start (entry : BitVec 32) (memory : Memory) : Kernel where
  procArray pid :=
    if pid = 1 then { pid := pid, registers := firstRegisters entry, state := .runnable }
    else { pid := pid }
  current := 1
  memory := memory

/-! ## Creating processes -/

/-- `n` bytes, from the lowest address on. -/
def memcpy : BitVec 32 → BitVec 32 → Nat → Memory → Memory
  | _, _, 0, memory => memory
  | dst, src, n + 1, memory =>
      memcpy (dst + 1) (src + 1) n (Function.update memory dst (memory src))

def stackTop (pid : Nat) : BitVec 32 :=
  proc1StackAddr + BitVec.ofNat 32 pid * procStackSize

/-- `copy_stack(&proc_array[dest], &proc_array[src])` -/
def copyStack (dest src : Nat) (k : Kernel) : Kernel :=
  let srcStackTop := stackTop (k.procArray src).pid
  let srcStackBottom := (k.procArray src).registers.esp
  let destStackTop := stackTop (k.procArray dest).pid
  let destStackBottom := destStackTop + (srcStackBottom - srcStackTop)
  let k := { k with
    memory := memcpy destStackBottom srcStackBottom (srcStackTop - srcStackBottom).toNat
      k.memory }
  k.modify dest fun p => { p with registers := { p.registers with esp := destStackBottom } }

/-- `do_fork(&proc_array[parent])` -/
def doFork (parent : Nat) (k : Kernel) : BitVec 32 × Kernel :=
  match k.firstEmpty with
  | none => (-1, k)
  | some pid =>
      let k := k.modify pid fun p => { p with registers := (k.procArray parent).registers }
      let k := copyStack pid parent k
      let k := k.modify pid fun p => { p.setEax 0 with pid := pid, state := .runnable }
      (BitVec.ofNat 32 pid, k)

def sysFork (k : Kernel) : Kernel :=
  let (result, k) := doFork k.current k
  k.modify k.current fun p => p.setEax result

def sysNewthread (k : Kernel) : Kernel :=
  match k.firstEmpty with
  | none => k
  | some pid =>
      let registers := { k.cur.registers with
        eax := 0
        eip := k.cur.registers.eax
        esp := stackTop pid }
      let k := k.modify pid fun p =>
        { p with registers := registers, pid := pid, state := .runnable, waiting := -1 }
      k.modify k.current fun p => p.setEax (BitVec.ofNat 32 pid)

/-! ## Ending processes -/

def sysGetpid (k : Kernel) : Kernel :=
  k.modify k.current fun p => p.setEax (BitVec.ofNat 32 p.pid)

def sysExit (k : Kernel) : Kernel :=
  let k := k.modify k.current fun p =>
    { p with state := .zombie, exitStatus := p.registers.eax }
  if 0 < k.cur.waiting then
    let waiter := k.cur.waiting.toNat
    let k := k.modify waiter fun p => { p with state := .runnable }
    let k := k.modify waiter fun p => p.setEax k.cur.exitStatus
    k.modify k.current fun p => { p with waiting := -1, state := .empty }
  else k

/-- The process whose number is in `%eax`. -/
def target (k : Kernel) : Int := k.cur.registers.eax.toInt

/-- The error of `sys_wait` and `sys_kill`. -/
def noSuchProcess (k : Kernel) : Prop :=
  target k ≤ 0 ∨ nprocs ≤ target k ∨ target k = k.cur.pid ∨
    (k.procArray (target k).toNat).state = .empty

instance (k : Kernel) : Decidable (noSuchProcess k) :=
  inferInstanceAs (Decidable (_ ∨ _ ∨ _ ∨ _))

def sysWait (k : Kernel) : Kernel :=
  let p := (target k).toNat
  if noSuchProcess k then k.modify k.current fun c => c.setEax (-1)
  else if (k.procArray p).state = .zombie then
    let k := k.modify k.current fun c => c.setEax (k.procArray p).exitStatus
    let k := k.modify p fun q => { q with state := .empty }
    k.modify k.current fun c => { c with state := .runnable }
  else
    let k := k.modify k.current fun c => { c with state := .blocked }
    k.modify p fun q => { q with waiting := k.cur.pid }

def sysKill (k : Kernel) : Kernel :=
  let p := (target k).toNat
  if noSuchProcess k then k.modify k.current fun c => c.setEax (-1)
  else
    let k := k.modify p fun q => { q with state := .empty }
    let k := k.modify k.current fun c => c.setEax 0
    if 0 < (k.procArray p).waiting then
      let k := k.modify (k.procArray p).waiting.toNat fun w => { w with state := .runnable }
      k.modify p fun q => { q with waiting := -1 }
    else k

/-! ## The scheduler and the interrupt handler -/

/-- The loop of `schedule`; `none`: nothing is found in these rounds. -/
def scheduleLoop : Nat → Nat → Kernel → Option Kernel
  | 0, _, _ => none
  | rounds + 1, pid, k =>
      let pid := (pid + 1) % nprocs
      if (k.procArray pid).state = .runnable then some (k.run pid)
      else scheduleLoop rounds pid k

/-- Every descriptor is looked at in `nprocs` rounds; with `none` the loop spins. -/
def schedule (k : Kernel) : Option Kernel := scheduleLoop nprocs k.cur.pid k

/-- `interrupt`; `none`: it does not run a process. -/
def interrupt (reg : Registers) (k : Kernel) : Option Kernel :=
  let k := k.modify k.current fun p => { p with registers := reg }
  match reg.intno.toNat with
  | 48 => some (sysGetpid k)
  | 49 => some (sysFork k)
  | 50 => schedule k
  | 51 => schedule (sysExit k)
  | 52 => schedule (sysWait k)
  | 53 => schedule (sysNewthread k)
  | 54 => schedule (sysKill k)
  | _ => none

theorem interrupt_eq {reg : Registers} {k saved : Kernel}
    (hsaved : k.modify k.current (fun p => { p with registers := reg }) = saved) :
    interrupt reg k =
      match reg.intno.toNat with
      | 48 => some (sysGetpid saved)
      | 49 => some (sysFork saved)
      | 50 => schedule saved
      | 51 => schedule (sysExit saved)
      | 52 => schedule (sysWait saved)
      | 53 => schedule (sysNewthread saved)
      | 54 => schedule (sysKill saved)
      | _ => none := by
  rw [← hsaved]
  rfl

/-! ## Lookups -/

namespace Kernel

variable {k : Kernel} {i pid : Nat} {f : Process → Process}

@[simp] theorem modify_current : (k.modify pid f).current = k.current := rfl

@[simp] theorem modify_self : (k.modify pid f).procArray pid = f (k.procArray pid) :=
  Function.update_self ..

theorem modify_of_ne (hne : i ≠ pid) : (k.modify pid f).procArray i = k.procArray i :=
  Function.update_of_ne hne ..

theorem firstEmpty_spec (h : k.firstEmpty = some pid) :
    0 < pid ∧ pid < nprocs ∧ (k.procArray pid).state = .empty := by
  have hstate := List.find?_some h
  have hmem := List.mem_of_find?_eq_some h
  rw [List.mem_range'_1] at hmem
  simp only [nprocs] at *
  exact ⟨by omega, by omega, by simpa using hstate⟩

end Kernel

/-! ## What the calls do to the descriptors -/

section Calls

variable {k : Kernel}

theorem modify_procArray (pid : Nat) (f : Process → Process) (i : Nat) :
    (k.modify pid f).procArray i = if i = pid then f (k.procArray i) else k.procArray i := by
  by_cases hi : i = pid
  · simp [hi]
  · simp [Kernel.modify_of_ne hi, hi]

theorem sysExit_alone (h : ¬ 0 < k.cur.waiting) (i : Nat) :
    (sysExit k).procArray i =
      if i = k.current then
        { k.cur with state := .zombie, exitStatus := k.cur.registers.eax }
      else k.procArray i := by
  have hwaiting : ¬ 0 < (k.procArray k.current).waiting := h
  simp only [sysExit, Kernel.cur, Kernel.modify_current, Kernel.modify_self, hwaiting,
    if_false, modify_procArray]
  split_ifs with hi
  · rw [hi]
  · rfl

theorem sysExit_awaited (h : 0 < k.cur.waiting) (hne : k.cur.waiting.toNat ≠ k.current)
    (i : Nat) :
    (sysExit k).procArray i =
      if i = k.current then
        { k.cur with state := .empty, exitStatus := k.cur.registers.eax, waiting := -1 }
      else if i = k.cur.waiting.toNat then
        { (k.procArray i).setEax k.cur.registers.eax with state := .runnable }
      else k.procArray i := by
  have hwaiting : 0 < (k.procArray k.current).waiting := h
  simp only [Kernel.cur] at hne
  simp only [sysExit, Kernel.cur, Kernel.modify_current, Kernel.modify_self, hwaiting,
    if_true, modify_procArray, hne.symm, if_false]
  by_cases hi : i = k.current
  · subst hi
    simp [hne.symm]
  · by_cases hw : i = (k.procArray k.current).waiting.toNat
    · simp [← hw, hi, Process.setEax]
    · simp [hi, hw]

theorem sysWait_error (h : noSuchProcess k) (i : Nat) :
    (sysWait k).procArray i =
      if i = k.current then k.cur.setEax (-1) else k.procArray i := by
  simp only [sysWait, h, if_true, modify_procArray]
  split_ifs with hi
  · rw [hi]
    rfl
  · rfl

theorem target_ne (h : ¬ noSuchProcess k) (hpid : k.cur.pid = k.current) :
    0 < target k ∧ (target k).toNat < nprocs ∧ (target k).toNat ≠ k.current ∧
      (k.procArray (target k).toNat).state ≠ .empty := by
  unfold noSuchProcess nprocs at h
  rw [hpid] at h
  push Not at h
  obtain ⟨hpos, hlt, hne, hstate⟩ := h
  exact ⟨hpos, by unfold nprocs; omega, by omega, hstate⟩

theorem sysWait_zombie (h : ¬ noSuchProcess k) (hpid : k.cur.pid = k.current)
    (hzombie : (k.procArray (target k).toNat).state = .zombie) (i : Nat) :
    (sysWait k).procArray i =
      if i = k.current then
        { k.cur.setEax (k.procArray (target k).toNat).exitStatus with state := .runnable }
      else if i = (target k).toNat then { k.procArray i with state := .empty }
      else k.procArray i := by
  have hne := (target_ne h hpid).2.2.1
  simp only [sysWait, h, if_false, hzombie, if_true, Kernel.modify_current, modify_procArray]
  split_ifs with hi hp
  · exact absurd (hp.symm.trans hi) hne
  · rw [hi]
    rfl
  · rfl
  · rfl

theorem sysWait_block (h : ¬ noSuchProcess k) (hpid : k.cur.pid = k.current)
    (hzombie : (k.procArray (target k).toNat).state ≠ .zombie) (i : Nat) :
    (sysWait k).procArray i =
      if i = k.current then { k.cur with state := .blocked }
      else if i = (target k).toNat then { k.procArray i with waiting := k.current }
      else k.procArray i := by
  have hne := (target_ne h hpid).2.2.1
  simp only [sysWait, h, if_false, hzombie, Kernel.cur, Kernel.modify_current,
    Kernel.modify_self, modify_procArray]
  split_ifs with hp hi hi
  · exact absurd (hp.symm.trans hi) hne
  · simp only [Kernel.cur] at hpid
    rw [hpid]
  · rw [hi]
  · rfl

theorem sysExit_current : (sysExit k).current = k.current := by
  simp only [sysExit]
  split <;> rfl

theorem sysWait_current : (sysWait k).current = k.current := by
  simp only [sysWait]
  split_ifs <;> rfl

theorem sysKill_current : (sysKill k).current = k.current := by
  simp only [sysKill]
  split_ifs <;> rfl

theorem sysKill_error (h : noSuchProcess k) (i : Nat) :
    (sysKill k).procArray i =
      if i = k.current then k.cur.setEax (-1) else k.procArray i := by
  simp only [sysKill, h, if_true, modify_procArray]
  split_ifs with hi
  · rw [hi]
    rfl
  · rfl

theorem sysKill_alone (h : ¬ noSuchProcess k) (hpid : k.cur.pid = k.current)
    (hwaiting : ¬ 0 < (k.procArray (target k).toNat).waiting) (i : Nat) :
    (sysKill k).procArray i =
      if i = k.current then k.cur.setEax 0
      else if i = (target k).toNat then { k.procArray i with state := .empty }
      else k.procArray i := by
  have hne := (target_ne h hpid).2.2.1
  simp only [sysKill, h, if_false, Kernel.modify_current, modify_procArray, hne, if_true,
    hwaiting]
  split_ifs with hi hp
  · exact absurd (hp.symm.trans hi) hne
  · rw [hi]
    rfl
  · rfl
  · rfl

/-- The killed process was recorded at a process that may be the killer's own. -/
theorem sysKill_awaited (h : ¬ noSuchProcess k) (hpid : k.cur.pid = k.current)
    (hrun : k.cur.state = .runnable)
    (hwaiting : 0 < (k.procArray (target k).toNat).waiting)
    (hother : (k.procArray (target k).toNat).waiting.toNat ≠ (target k).toNat) (i : Nat) :
    (sysKill k).procArray i =
      if i = k.current then k.cur.setEax 0
      else if i = (target k).toNat then { k.procArray i with state := .empty, waiting := -1 }
      else if i = (k.procArray (target k).toNat).waiting.toNat then
        { k.procArray i with state := .runnable }
      else k.procArray i := by
  have hne := (target_ne h hpid).2.2.1
  simp only [sysKill, h, if_false, Kernel.modify_current, modify_procArray, hne, if_true,
    hwaiting]
  by_cases hi : i = k.current
  · subst hi
    simp only [Kernel.cur] at hrun ⊢
    split_ifs with hp hw
    · exact absurd hp.symm hne
    · exact absurd hp.symm hne
    · simp [Process.setEax, hrun]
    · rfl
  · by_cases hp : i = (target k).toNat
    · simp [hp, hother.symm, hne]
    · by_cases hw : i = (k.procArray (target k).toNat).waiting.toNat
      · simp [← hw, hi, hp]
      · simp [hw, hi, hp]

theorem sysGetpid_procArray (k : Kernel) (i : Nat) :
    (sysGetpid k).procArray i =
      if i = k.current then k.cur.setEax (BitVec.ofNat 32 k.cur.pid) else k.procArray i := by
  simp only [sysGetpid, modify_procArray]
  split_ifs with hi
  · rw [hi]
    rfl
  · rfl

theorem sysFork_current : (sysFork k).current = k.current := by
  simp only [sysFork, doFork]
  split <;> rfl

theorem sysFork_full (h : k.firstEmpty = none) (i : Nat) :
    (sysFork k).procArray i =
      if i = k.current then k.cur.setEax (-1) else k.procArray i := by
  simp only [sysFork, doFork, h, modify_procArray]
  split_ifs with hi
  · rw [hi]
    rfl
  · rfl

theorem sysNewthread_full (h : k.firstEmpty = none) : sysNewthread k = k := by
  simp [sysNewthread, h]

/-- What is the same for a forked process and a thread. -/
structure Creates (k k' : Kernel) (p : Nat) : Prop where
  current : k'.current = k.current
  caller : k'.cur = k.cur.setEax (BitVec.ofNat 32 p)
  other : ∀ i, i ≠ k.current → i ≠ p → k'.procArray i = k.procArray i
  pid : (k'.procArray p).pid = p
  state : (k'.procArray p).state = .runnable
  waiting : (k'.procArray p).waiting = (k.procArray p).waiting ∨
    (k'.procArray p).waiting = -1

/-- Apart from the new process only a register of the caller changes. -/
theorem Creates.same {k' : Kernel} {p i : Nat} (h : Creates k k' p) (hi : i ≠ p) :
    ∃ value, k'.procArray i = (k.procArray i).setEax value := by
  by_cases hc : i = k.current
  · have hcaller := h.caller
    simp only [Kernel.cur, h.current] at hcaller
    rw [hc]
    exact ⟨_, hcaller⟩
  · rw [h.other i hc hi]
    exact ⟨_, rfl⟩

/-- `copy_stack` changes the memory and one register. -/
theorem copyStack_eq (dest src : Nat) (k : Kernel) :
    ∃ memory esp, copyStack dest src k = { k with memory := memory }.modify dest fun p =>
      { p with registers := { p.registers with esp := esp } } :=
  ⟨_, _, rfl⟩

theorem sysFork_creates {pid : Nat} (h : k.firstEmpty = some pid) (hne : pid ≠ k.current) :
    Creates k (sysFork k) pid := by
  obtain ⟨memory, esp, hcopy⟩ := copyStack_eq pid k.current (k.modify pid fun p =>
    { p with registers := (k.procArray k.current).registers })
  simp only [sysFork, doFork, h, hcopy]
  exact {
    current := by simp
    caller := by simp [Kernel.cur, modify_procArray, hne.symm]
    other := fun i hcur hpid => by simp [modify_procArray, hcur, hpid]
    pid := by simp [modify_procArray, hne]
    state := by simp [modify_procArray, hne]
    waiting := by simp [modify_procArray, hne, Process.setEax] }

theorem sysNewthread_creates {pid : Nat} (h : k.firstEmpty = some pid)
    (hne : pid ≠ k.current) : Creates k (sysNewthread k) pid where
  current := by simp [sysNewthread, h]
  caller := by simp [sysNewthread, h, Kernel.cur, modify_procArray, hne.symm]
  other i hcur hpid := by simp [sysNewthread, h, modify_procArray, hcur, hpid]
  pid := by simp [sysNewthread, h, modify_procArray, hne]
  state := by simp [sysNewthread, h, modify_procArray, hne]
  waiting := by
    simp [sysNewthread, h, modify_procArray, hne]

end Calls

/-! ## The scheduler -/

section Schedule

variable {k k' : Kernel}

/-- The first runnable process after `pid` is run, if there is one. -/
theorem scheduleLoop_cases (rounds pid : Nat) (k : Kernel) :
    (scheduleLoop rounds pid k = none ∧
        ∀ d < rounds, (k.procArray ((pid + 1 + d) % nprocs)).state ≠ .runnable) ∨
      ∃ d < rounds, scheduleLoop rounds pid k = some (k.run ((pid + 1 + d) % nprocs)) ∧
        (k.procArray ((pid + 1 + d) % nprocs)).state = .runnable ∧
        ∀ e < d, (k.procArray ((pid + 1 + e) % nprocs)).state ≠ .runnable := by
  induction rounds generalizing pid with
  | zero => exact .inl ⟨rfl, nofun⟩
  | succ rounds ih =>
      simp only [scheduleLoop]
      have hnext : ∀ d, ((pid + 1) % nprocs + 1 + d) % nprocs = (pid + 1 + (d + 1)) % nprocs :=
        fun d => by
          rw [Nat.add_assoc, Nat.mod_add_mod]
          congr 1
          omega
      by_cases hrunnable : (k.procArray ((pid + 1) % nprocs)).state = .runnable
      · exact .inr ⟨0, Nat.succ_pos rounds, if_pos hrunnable, hrunnable, nofun⟩
      · rw [if_neg hrunnable]
        have hskip : ∀ (d : Nat), (∀ e < d, (k.procArray
            (((pid + 1) % nprocs + 1 + e) % nprocs)).state ≠ .runnable) →
            ∀ e < d + 1, (k.procArray ((pid + 1 + e) % nprocs)).state ≠ .runnable := by
          intro d h e he
          cases e with
          | zero => exact hrunnable
          | succ e =>
              rw [← hnext]
              exact h e (by omega)
        rcases ih ((pid + 1) % nprocs) with ⟨hnone, hidle⟩ | ⟨d, hd, hsome, hfound, hfirst⟩
        · exact .inl ⟨hnone, hskip rounds hidle⟩
        · rw [hnext] at hsome hfound
          exact .inr ⟨d + 1, by omega, hsome, hfound, hskip d hfirst⟩

theorem schedule_eq_some (h : schedule k = some k') :
    ∃ next, next < nprocs ∧ (k.procArray next).state = .runnable ∧ k' = k.run next := by
  rcases scheduleLoop_cases nprocs k.cur.pid k with ⟨hnone, -⟩ | ⟨d, -, hsome, hrunnable, -⟩
  · rw [schedule, hnone] at h
    cases h
  · rw [schedule, hsome] at h
    exact ⟨_, Nat.mod_lt _ (by decide), hrunnable, (Option.some.inj h).symm⟩

/-- The scheduler does not spin while a process is runnable. -/
theorem exists_schedule {i : Nat} (hi : i < nprocs) (hrunnable : (k.procArray i).state = .runnable) :
    ∃ k', schedule k = some k' := by
  rcases scheduleLoop_cases nprocs k.cur.pid k with ⟨-, hidle⟩ | ⟨d, -, hsome, -⟩
  · have hindex : (k.cur.pid + 1 + (i + nprocs * (k.cur.pid + 1) - (k.cur.pid + 1)) % nprocs) %
        nprocs = i := by
      unfold nprocs at *
      omega
    exact absurd (hindex.symm ▸ hrunnable) (hidle _ (Nat.mod_lt _ (by decide)))
  · exact ⟨_, hsome⟩

end Schedule

end Cs111Labs.Miniproc
