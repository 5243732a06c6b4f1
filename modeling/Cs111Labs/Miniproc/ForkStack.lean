import Cs111Labs.Miniproc.Waits

/-!
# The stack of a forked process

`do_fork` copies the parent's stack into the region of the lowest empty
descriptor.  Nothing else in the memory and no other descriptor changes.
-/

namespace Cs111Labs.Miniproc

/-! ## The copy loop -/

/-- The copy is right as long as it does not overwrite what is still to be read. -/
theorem memcpy_apply {n : Nat} {dst src : BitVec 32} (m : Memory)
    (hapart : n ≤ (dst - src).toNat) (a : BitVec 32) :
    memcpy dst src n m a = if (a - dst).toNat < n then m (src + (a - dst)) else m a := by
  induction n generalizing dst src m with
  | zero => rfl
  | succ n ih =>
      have hapart' : n ≤ (dst + 1 - (src + 1)).toNat := by bv_omega
      rw [memcpy, ih _ hapart']
      by_cases ha : a = dst
      · subst ha
        have hpast : ¬ (a - (a + 1)).toNat < n := by bv_omega
        rw [if_neg hpast, if_pos (by bv_omega), Function.update_self]
        simp
      · have hshift : (a - (dst + 1)).toNat + 1 = (a - dst).toNat := by bv_omega
        have haddr : src + 1 + (a - (dst + 1)) = src + (a - dst) := by bv_omega
        rw [haddr, Function.update_of_ne ha]
        by_cases hlt : (a - dst).toNat < n + 1
        · have hne : src + (a - dst) ≠ dst := by
            intro heq
            have hback : a - dst = dst - src := by bv_omega
            rw [hback] at hlt
            omega
          rw [if_pos (by omega), if_pos hlt, Function.update_of_ne hne]
        · rw [if_neg (by omega), if_neg hlt]

/-! ## The stack regions -/

theorem stackTop_toNat {pid : Nat} (hpid : pid < nprocs) :
    (stackTop pid).toNat = 0x280000 + pid * 0x40000 := by
  have haddr : proc1StackAddr.toNat = 0x280000 := rfl
  have hsize : procStackSize.toNat = 0x40000 := rfl
  simp only [nprocs] at hpid
  rw [stackTop, BitVec.toNat_add, BitVec.toNat_mul, BitVec.toNat_ofNat, haddr, hsize,
    Nat.mod_eq_of_lt (show pid < 2 ^ 32 by omega),
    Nat.mod_eq_of_lt (show pid * 0x40000 < 2 ^ 32 by omega), Nat.mod_eq_of_lt (by omega)]

theorem stackTop_pred {pid : Nat} (hpos : 0 < pid) (hpid : pid < nprocs) :
    (stackTop (pid - 1)).toNat + 0x40000 = (stackTop pid).toNat := by
  obtain ⟨n, rfl⟩ := Nat.exists_eq_add_of_lt hpos
  rw [show 0 + n + 1 - 1 = n by omega, stackTop_toNat (by omega), stackTop_toNat hpid]
  ring

/-- The address lies in the stack of the process. -/
def inStack (pid : Nat) (a : BitVec 32) : Prop :=
  stackTop (pid - 1) ≤ a ∧ a < stackTop pid

/-- A process whose stack pointer lies in its own stack. -/
structure OnOwnStack (k : Kernel) (pid : Nat) : Prop where
  slot : 0 < pid ∧ pid < nprocs
  state : (k.procArray pid).state ≠ .empty
  base : stackTop (pid - 1) ≤ (k.procArray pid).registers.esp
  top : (k.procArray pid).registers.esp ≤ stackTop pid

/-- `p_pid` is the number of the descriptor, as `start` has set it. -/
def Numbered (k : Kernel) : Prop := ∀ pid, (k.procArray pid).pid = pid

theorem System.numbered_of_reaches {s : System} {entry : BitVec 32} {memory : Memory}
    (h : Foundation.Reaches System.step (fun _ _ => True) (.start entry memory) s) :
    Numbered s.kernel :=
  (System.wf_of_reaches h).pid

/-! ## The forked process -/

/-- `child` is a copy of `parent` with a stack of its own. -/
structure Forks (parent child : Nat) (k k' : Kernel) : Prop where
  slot : 0 < child ∧ child < nprocs
  empty : (k.procArray child).state = .empty
  lowest : ∀ pid, 0 < pid → pid < child → (k.procArray pid).state ≠ .empty
  /-- The stack pointers are at the same distance below the tops. -/
  depth : (k'.procArray child).registers.esp.toNat + (stackTop parent).toNat =
    (k.procArray parent).registers.esp.toNat + (stackTop child).toNat
  base : stackTop (child - 1) ≤ (k'.procArray child).registers.esp
  stack : ∀ n, 0 < n → n ≤ stackTop parent - (k.procArray parent).registers.esp →
    k'.memory (stackTop child - n) = k.memory (stackTop parent - n)
  descriptor : k'.procArray child =
    { k.procArray child with
      pid := child
      state := .runnable
      registers := { (k.procArray parent).registers with
        eax := 0
        esp := (k'.procArray child).registers.esp } }
  memory : ∀ a, ¬ inStack child a → k'.memory a = k.memory a
  other : ∀ pid, pid ≠ child → k'.procArray pid = k.procArray pid

section Fork

variable {k : Kernel} {parent child : Nat}

theorem firstEmpty_lowest (h : k.firstEmpty = some child) {pid : Nat} (hpos : 0 < pid)
    (hlt : pid < child) : (k.procArray pid).state ≠ .empty := by
  obtain ⟨-, i, hi, hchild, hbefore⟩ := List.find?_eq_some_iff_getElem.mp h
  rw [List.getElem_range'] at hchild
  have hpid := hbefore (pid - 1) (by omega)
  rw [List.getElem_range', show 1 + 1 * (pid - 1) = pid by omega] at hpid
  simpa using hpid

theorem firstEmpty_of_empty {pid : Nat} (hpos : 0 < pid) (hlt : pid < nprocs)
    (hempty : (k.procArray pid).state = .empty) : ∃ child, k.firstEmpty = some child := by
  refine Option.isSome_iff_exists.mp (List.find?_isSome.mpr ⟨pid, ?_, by simpa using hempty⟩)
  rw [List.mem_range'_1]
  omega

/-- The child's stack pointer that `copy_stack` computes. -/
def childEsp (k : Kernel) (parent child : Nat) : BitVec 32 :=
  stackTop child + ((k.procArray parent).registers.esp - stackTop parent)

def childProcess (k : Kernel) (parent child : Nat) : Process :=
  { k.procArray child with
    pid := child
    state := .runnable
    registers := { (k.procArray parent).registers with
      eax := 0
      esp := childEsp k parent child } }

def childMemory (k : Kernel) (parent child : Nat) : Memory :=
  memcpy (childEsp k parent child) (k.procArray parent).registers.esp
    (stackTop parent - (k.procArray parent).registers.esp).toNat k.memory

theorem doFork_eq (hnumbered : Numbered k) (h : k.firstEmpty = some child)
    (hne : parent ≠ child) :
    doFork parent k = (BitVec.ofNat 32 child,
      { k with
        procArray := Function.update k.procArray child (childProcess k parent child)
        memory := childMemory k parent child }) := by
  have hparent := hnumbered parent
  have hchild := hnumbered child
  rw [doFork, h]
  dsimp only
  simp only [copyStack, Kernel.modify, hparent, hchild, Function.update_self,
    Function.update_of_ne hne, Function.update_idem, childMemory, childEsp, childProcess,
    Process.setEax]

/-- The stack pointer of a process is at most one region below its top. -/
theorem OnOwnStack.depth_le (hparent : OnOwnStack k parent) :
    (k.procArray parent).registers.esp.toNat ≤ (stackTop parent).toNat ∧
      (stackTop parent).toNat ≤ (k.procArray parent).registers.esp.toNat + 0x40000 := by
  have hslot := hparent.slot
  have hbase := BitVec.le_def.mp hparent.base
  have htop := BitVec.le_def.mp hparent.top
  have hregion := stackTop_pred hslot.1 hslot.2
  omega

theorem childEsp_toNat (hparent : OnOwnStack k parent) (hlt : child < nprocs) :
    (childEsp k parent child).toNat + (stackTop parent).toNat =
      (k.procArray parent).registers.esp.toNat + (stackTop child).toNat := by
  have hdepth := hparent.depth_le
  have hown := stackTop_toNat hparent.slot.2
  have hchild := stackTop_toNat hlt
  have hslot := hparent.slot
  simp only [nprocs] at hlt hslot
  unfold childEsp
  generalize (k.procArray parent).registers.esp = esp at *
  generalize stackTop parent = top at *
  generalize stackTop child = top' at *
  bv_omega

/-- The copy is right: what it overwrites is not still to be read. -/
theorem copy_apart (hparent : OnOwnStack k parent) (hpos : 0 < child) (hlt : child < nprocs)
    (hne : parent ≠ child) :
    (stackTop parent - (k.procArray parent).registers.esp).toNat ≤
      (childEsp k parent child - (k.procArray parent).registers.esp).toNat := by
  have hdepth := hparent.depth_le
  have hown := stackTop_toNat hparent.slot.2
  have hchild := stackTop_toNat hlt
  have hslot := hparent.slot
  simp only [nprocs] at hlt hslot
  unfold childEsp
  generalize (k.procArray parent).registers.esp = esp at *
  generalize stackTop parent = top at *
  generalize stackTop child = top' at *
  have hsize : (top - esp).toNat = top.toNat - esp.toNat := by bv_omega
  rcases Nat.lt_or_gt_of_ne hne with hbefore | hafter
  · have hshift : (top' + (esp - top) - esp).toNat = top'.toNat - top.toNat := by bv_omega
    omega
  · have hshift : (top' + (esp - top) - esp).toNat = 2 ^ 32 - (top.toNat - top'.toNat) := by
      bv_omega
    omega

/-- What lies in the child's region from its stack pointer on is what the copy writes. -/
theorem inStack_of_copied (hparent : OnOwnStack k parent) (hpos : 0 < child)
    (hlt : child < nprocs) {a : BitVec 32}
    (ha : (a - childEsp k parent child).toNat <
      (stackTop parent - (k.procArray parent).registers.esp).toNat) : inStack child a := by
  have hdepth := hparent.depth_le
  have hesp := childEsp_toNat hparent hlt
  have hown := stackTop_toNat hparent.slot.2
  have hchild := stackTop_toNat hlt
  have hregion := stackTop_pred hpos hlt
  have hslot := hparent.slot
  simp only [nprocs] at hlt hslot
  simp only [inStack, BitVec.le_def, BitVec.lt_def]
  generalize childEsp k parent child = esp' at *
  generalize (k.procArray parent).registers.esp = esp at *
  generalize stackTop parent = top at *
  generalize stackTop child = top' at *
  generalize stackTop (child - 1) = base' at *
  have hsize : (top - esp).toNat = top.toNat - esp.toNat := by bv_omega
  have hoffset : a.toNat = esp'.toNat + (a - esp').toNat := by bv_omega
  omega

theorem childMemory_apply (hparent : OnOwnStack k parent) (hpos : 0 < child)
    (hlt : child < nprocs) (hne : parent ≠ child) (a : BitVec 32) :
    childMemory k parent child a =
      if (a - childEsp k parent child).toNat <
          (stackTop parent - (k.procArray parent).registers.esp).toNat then
        k.memory ((k.procArray parent).registers.esp + (a - childEsp k parent child))
      else k.memory a :=
  memcpy_apply k.memory (copy_apart hparent hpos hlt hne) a

theorem childMemory_stack (hparent : OnOwnStack k parent) (hpos : 0 < child)
    (hlt : child < nprocs) (hne : parent ≠ child) {n : BitVec 32} (hn : 0 < n)
    (hle : n ≤ stackTop parent - (k.procArray parent).registers.esp) :
    childMemory k parent child (stackTop child - n) = k.memory (stackTop parent - n) := by
  have haddr : stackTop child - n - childEsp k parent child =
      stackTop parent - (k.procArray parent).registers.esp - n := by
    unfold childEsp
    bv_omega
  rw [childMemory_apply hparent hpos hlt hne, haddr, if_pos (by bv_omega)]
  congr 1
  bv_omega

theorem childEsp_base (hparent : OnOwnStack k parent) (hpos : 0 < child)
    (hlt : child < nprocs) :
    stackTop (child - 1) ≤ childEsp k parent child := by
  have hdepth := hparent.depth_le
  have hesp := childEsp_toNat hparent hlt
  have hregion := stackTop_pred hpos hlt
  rw [BitVec.le_def]
  omega

theorem doFork_forks (hnumbered : Numbered k) (hparent : OnOwnStack k parent)
    (hempty : ∃ pid, 0 < pid ∧ pid < nprocs ∧ (k.procArray pid).state = .empty) :
    ∃ child, (doFork parent k).1 = BitVec.ofNat 32 child ∧
      Forks parent child k (doFork parent k).2 := by
  obtain ⟨pid, hpidPos, hpidLt, hpid⟩ := hempty
  obtain ⟨child, hfirst⟩ := firstEmpty_of_empty hpidPos hpidLt hpid
  obtain ⟨hpos, hlt, hstate⟩ := Kernel.firstEmpty_spec hfirst
  have hne : parent ≠ child := fun heq => hparent.state (heq ▸ hstate)
  have hself : Function.update k.procArray child (childProcess k parent child) child =
      childProcess k parent child := Function.update_self ..
  rw [doFork_eq hnumbered hfirst hne]
  refine ⟨child, rfl, ?_⟩
  exact {
    slot := ⟨hpos, hlt⟩
    empty := hstate
    lowest := fun pid hpid hbefore => firstEmpty_lowest hfirst hpid hbefore
    depth := by
      simp only [hself]
      exact childEsp_toNat hparent hlt
    base := by
      simp only [hself]
      exact childEsp_base hparent hpos hlt
    stack := fun n hn hle => childMemory_stack hparent hpos hlt hne hn hle
    descriptor := by
      simp only [hself]
      rfl
    memory := by
      intro a ha
      refine (childMemory_apply hparent hpos hlt hne a).trans ?_
      exact if_neg fun hin => ha (inStack_of_copied hparent hpos hlt hin)
    other := fun pid hpid => Function.update_of_ne hpid .. }

end Fork

/-- Process 1 with eight bytes on its stack. -/
def eightBytes : Kernel :=
  (start 0 fun a => UInt8.ofNat a.toNat).modify 1 fun p =>
    { p with registers := { p.registers with esp := stackTop 1 - 8 } }

theorem eightBytes_numbered : Numbered eightBytes := by
  intro pid
  by_cases hpid : pid = 1
  · subst hpid
    rfl
  · rw [eightBytes, Kernel.modify_of_ne hpid, start]
    exact congrArg Process.pid (if_neg hpid)

theorem doFork_forks_eightBytes :
    ∃ child, (doFork 1 eightBytes).1 = BitVec.ofNat 32 child ∧
      Forks 1 child eightBytes (doFork 1 eightBytes).2 :=
  doFork_forks eightBytes_numbered
    ⟨by decide, by decide, by decide, by decide⟩ ⟨2, by decide, by decide, by decide⟩

end Cs111Labs.Miniproc
