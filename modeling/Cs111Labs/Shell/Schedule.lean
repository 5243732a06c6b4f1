import Cs111Labs.Foundation.Dependency

/-!
# Starting commands in dependency order

`execute_tcmd` starts every command without unfinished predecessors, waits for
one child, erases the column of that child and calls itself.  The kernel
decides the process numbers and which child each `wait` returns; everything
below holds for every such kernel.
-/

namespace Cs111Labs.Shell

open Foundation

structure Child (n : Nat) where
  pid : Int
  ind : Fin n
  deriving DecidableEq, Repr

inductive Event (n : Nat) where
  | started (ind : Fin n)
  | waitCalled (children : List (Child n))
  | reaped (ind : Fin n)
  deriving DecidableEq, Repr

instance (n : Nat) : LawfulBEq (Event n) := inferInstance

/--
The system calls.  A new process number is positive and not in use by another
child; numbers of reaped children may come back.  `wait` picks any child.
-/
structure Kernel (n : Nat) where
  fork : List (Event n) → List (Child n) → Int
  fork_pos : ∀ log children, 0 < fork log children
  fork_fresh : ∀ log children, ∀ child ∈ children, child.pid ≠ fork log children
  wait : List (Event n) → (children : List (Child n)) → children ≠ [] → Child n
  wait_mem : ∀ log children h, wait log children h ∈ children
  status : Child n → Int

def freshPid {n : Nat} (children : List (Child n)) : Int :=
  children.foldr (fun child pid => max child.pid pid) 0 + 1

theorem freshPid_gt {n : Nat} (children : List (Child n)) :
    0 < freshPid children ∧
      ∀ child ∈ children, child.pid < freshPid children := by
  unfold freshPid
  induction children with
  | nil => simp
  | cons head tail ih =>
      simp only [List.foldr_cons, List.mem_cons, forall_eq_or_imp]
      refine ⟨by omega, by omega, fun child hchild => ?_⟩
      have hlt := ih.2 child hchild
      omega

def Kernel.ofWait {n : Nat}
    (wait : (children : List (Child n)) → children ≠ [] → Child n)
    (wait_mem : ∀ children h, wait children h ∈ children) : Kernel n where
  fork _ children := freshPid children
  fork_pos _ children := (freshPid_gt children).1
  fork_fresh _ children child hchild :=
    (ne_of_lt ((freshPid_gt children).2 child hchild))
  wait _ children h := wait children h
  wait_mem _ children h := wait_mem children h
  status _ := 0

/-- Children are reaped in the order in which they were started. -/
def fifoKernel (n : Nat) : Kernel n :=
  .ofWait (fun children h => children.head h) (fun _ h => List.head_mem h)

/-- The arguments of `execute_tcmd`, the children of the shell and the history. -/
structure Tcmd (n : Nat) where
  constrainGraph : Fin n → Fin n → Int
  W : Fin n → Int
  running : Fin n → Bool := fun _ => false
  pid : Fin n → Int := fun _ => 0
  status : Int := 0
  children : List (Child n) := []
  log : List (Event n) := []

variable {n : Nat}

def allRun (s : Tcmd n) : Bool :=
  (List.finRange n).all fun ind => s.running ind

def startCommand (kernel : Kernel n) (s : Tcmd n) (ind : Fin n) : Tcmd n :=
  if s.W ind = 0 ∧ s.running ind = false then
    let pidTemp := kernel.fork s.log s.children
    { s with
      running := Function.update s.running ind true
      pid := Function.update s.pid ind pidTemp
      children := s.children ++ [⟨pidTemp, ind⟩]
      log := s.log ++ [.started ind] }
  else s

def startReady (kernel : Kernel n) (s : Tcmd n) : Tcmd n :=
  (List.finRange n).foldl (startCommand kernel) s

/-- `wait` returns `child`; an earlier nonzero status is put back afterwards. -/
def childReaped (kernel : Kernel n) (s : Tcmd n) (child : Child n) : Tcmd n :=
  { s with
    status := if s.status ≠ 0 then s.status else kernel.status child
    children := s.children.erase child
    log := s.log ++ [.waitCalled s.children, .reaped child.ind] }

@[simp] theorem childReaped_log (kernel : Kernel n) (s : Tcmd n)
    (child : Child n) : (childReaped kernel s child).log =
      s.log ++ [.waitCalled s.children, .reaped child.ind] := rfl

@[simp] theorem childReaped_constrainGraph (kernel : Kernel n) (s : Tcmd n)
    (child : Child n) : (childReaped kernel s child).constrainGraph =
      s.constrainGraph := rfl

/-- `pid_temp = wait(status)`, which is -1 when there is no child. -/
def waitChild (kernel : Kernel n) (s : Tcmd n) : Int × Tcmd n :=
  if h : s.children = [] then
    (-1, { s with log := s.log ++ [.waitCalled s.children] })
  else
    let child := kernel.wait s.log s.children h
    (child.pid, childReaped kernel s child)

def releaseEntry (pid : Fin n → Int) (pidTemp : Int)
    (row : (Fin n → Int) × Int) (col : Fin n) : (Fin n → Int) × Int :=
  if pid col = pidTemp ∧ row.1 col = 1 then
    (Function.update row.1 col 0, row.2 - 1)
  else row

def releaseRow (pid : Fin n → Int) (pidTemp : Int)
    (row : (Fin n → Int) × Int) : (Fin n → Int) × Int :=
  (List.finRange n).foldl (releaseEntry pid pidTemp) row

def release (pidTemp : Int) (s : Tcmd n) : Tcmd n :=
  { s with
    constrainGraph := fun row =>
      (releaseRow s.pid pidTemp (s.constrainGraph row, s.W row)).1
    W := fun row =>
      (releaseRow s.pid pidTemp (s.constrainGraph row, s.W row)).2 }

@[simp] theorem release_log (pidTemp : Int) (s : Tcmd n) :
    (release pidTemp s).log = s.log := rfl

def reap (kernel : Kernel n) (s : Tcmd n) : Tcmd n :=
  release (waitChild kernel s).1 (waitChild kernel s).2

theorem reap_eq (kernel : Kernel n) {s : Tcmd n} (h : s.children ≠ []) :
    reap kernel s = release (kernel.wait s.log s.children h).pid
      (childReaped kernel s (kernel.wait s.log s.children h)) := by
  simp [reap, waitChild, h]

def tcmdRound (kernel : Kernel n) (s : Tcmd n) : Tcmd n :=
  reap kernel (startReady kernel s)

/-- `none` when `fuel` nested calls were not enough. -/
def executeTcmd (kernel : Kernel n) : Nat → Tcmd n → Option (Tcmd n)
  | 0, _ => none
  | fuel + 1, s =>
      if allRun s then some s
      else executeTcmd kernel fuel (tcmdRound kernel s)

/-- The states in which `execute_tcmd` is called when it is called in `first`. -/
inductive Calls (kernel : Kernel n) (first : Tcmd n) : Tcmd n → Prop
  | start : Calls kernel first first
  | next {s : Tcmd n} : Calls kernel first s → allRun s = false →
      Calls kernel first (tcmdRound kernel s)

/-! ## Histories -/

/-- The predecessors of a command that have not been reaped. -/
def unfinished (graph : Fin n → Fin n → Int) (log : List (Event n))
    (row : Fin n) : Finset (Fin n) :=
  {col | graph row col = 1 ∧ Event.reaped col ∉ log}

/-- A command is started after all its predecessors were reaped. -/
def Ordered (graph : Fin n → Fin n → Int) (log : List (Event n)) : Prop :=
  ∀ before row after, log = before ++ .started row :: after →
    ∀ col, graph row col = 1 → .reaped col ∈ before

theorem Ordered.append {graph : Fin n → Fin n → Int} {log : List (Event n)}
    {e : Event n} (h : Ordered graph log)
    (hnew : ∀ row, e = .started row →
      ∀ col, graph row col = 1 → .reaped col ∈ log) :
    Ordered graph (log ++ [e]) := by
  intro before row after heq col hcol
  rcases List.eq_nil_or_concat after with rfl | ⟨after, last, rfl⟩
  · obtain ⟨rfl, hlast⟩ := List.append_inj' heq (by simp)
    exact hnew row (by simpa using hlast) col hcol
  · have hsplit : log ++ [e] =
        (before ++ .started row :: after) ++ [last] := by simpa using heq
    exact h before row after (List.append_inj' hsplit (by simp)).1 col hcol

/-! ## Erasing a column -/

theorem releaseFold (pid : Fin n → Int) (pidTemp : Int) (cols : List (Fin n))
    (hnodup : cols.Nodup) (row : (Fin n → Int) × Int) :
    (∀ col, (cols.foldl (releaseEntry pid pidTemp) row).1 col =
        if col ∈ cols ∧ pid col = pidTemp ∧ row.1 col = 1 then 0
        else row.1 col) ∧
      (cols.foldl (releaseEntry pid pidTemp) row).2 =
        row.2 - cols.countP (fun col => pid col = pidTemp ∧ row.1 col = 1) := by
  induction cols generalizing row with
  | nil => simp
  | cons head tail ih =>
      obtain ⟨hhead, htail⟩ := List.nodup_cons.mp hnodup
      obtain ⟨ihEntry, ihCount⟩ := ih htail (releaseEntry pid pidTemp row head)
      by_cases hmatch : pid head = pidTemp ∧ row.1 head = 1
      · have hentry : releaseEntry pid pidTemp row head =
            (Function.update row.1 head 0, row.2 - 1) := if_pos hmatch
        rw [hentry] at ihEntry ihCount
        constructor
        · intro col
          rw [List.foldl_cons, hentry, ihEntry col]
          by_cases hcol : col = head
          · subst hcol
            simp [hhead, hmatch]
          · simp [hcol]
        · have hsame : tail.countP (fun col => pid col = pidTemp ∧
              Function.update row.1 head 0 col = 1) =
              tail.countP (fun col => pid col = pidTemp ∧ row.1 col = 1) := by
            apply List.countP_congr
            intro col hcol
            have hne : col ≠ head := fun h => hhead (h ▸ hcol)
            simp [Function.update_of_ne hne]
          rw [List.foldl_cons, hentry, ihCount, hsame,
            List.countP_cons_of_pos (by simpa using hmatch)]
          push_cast
          ring
      · have hentry : releaseEntry pid pidTemp row head = row := if_neg hmatch
        rw [hentry] at ihEntry ihCount
        constructor
        · intro col
          rw [List.foldl_cons, hentry, ihEntry col]
          by_cases hcol : col = head
          · subst hcol
            simp [hhead, hmatch]
          · simp [hcol]
        · rw [List.foldl_cons, hentry, ihCount,
            List.countP_cons_of_neg (by simpa using hmatch)]

theorem release_constrainGraph (pidTemp : Int) (s : Tcmd n) (row col : Fin n) :
    (release pidTemp s).constrainGraph row col =
      if s.pid col = pidTemp ∧ s.constrainGraph row col = 1 then 0
      else s.constrainGraph row col := by
  simpa [release, releaseRow] using
    (releaseFold s.pid pidTemp _ (List.nodup_finRange n)
      (s.constrainGraph row, s.W row)).1 col

theorem release_W (pidTemp : Int) (s : Tcmd n) (row : Fin n) :
    (release pidTemp s).W row = s.W row - (List.finRange n).countP
      (fun col => s.pid col = pidTemp ∧ s.constrainGraph row col = 1) :=
  (releaseFold s.pid pidTemp _ (List.nodup_finRange n)
    (s.constrainGraph row, s.W row)).2

end Cs111Labs.Shell
