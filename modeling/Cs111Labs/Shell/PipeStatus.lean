import Cs111Labs.Shell.Execute

/-!
# The status of a pipeline

`execute_pipe_command` waits for whichever child ends first and then for the
other one, and what is waited for last stays in the node.
-/

namespace Cs111Labs.Shell

abbrev Pid := Nat

/-- A child that has terminated, with the status that `wait` stores. -/
structure Ended where
  pid : Pid
  status : Nat
  deriving DecidableEq, Repr

/-- `wait`; the children are in the order in which they are reaped. -/
def wait : List Ended → Option (Ended × List Ended)
  | [] => none
  | child :: children => some (child, children)

/-- `waitpid` with the pid of a child -/
def waitpid (pid : Pid) (children : List Ended) : Option (Ended × List Ended) :=
  (children.find? (·.pid = pid)).map fun child => (child, children.erase child)

/-- A PIPE node whose children were forked. -/
structure PipeNode where
  pidLeft : Pid
  pidRight : Pid
  /-- The wait status of the right child. -/
  right : Nat
  /-- The left child is the one that `wait` returns. -/
  leftFirst : Bool
  distinct : pidLeft ≠ pidRight

namespace PipeNode

/-- The children of the node in the order in which they are reaped. -/
def children (node : PipeNode) (left : Nat) : List Ended :=
  if node.leftFirst then [⟨node.pidLeft, left⟩, ⟨node.pidRight, node.right⟩]
  else [⟨node.pidRight, node.right⟩, ⟨node.pidLeft, left⟩]

/-- The parent's branch of `execute_pipe_command`: the status of the node and
the children that are left.  `status_temp` keeps its value if there is no child
to wait for. -/
def executeParent (node : PipeNode) (children : List Ended) :
    Option (Nat × List Ended) :=
  (wait children).map fun (first, children) =>
    let other := if first.pid = node.pidLeft then node.pidRight else node.pidLeft
    match waitpid other children with
    | none => (first.status, children)
    | some (second, children) => (second.status, children)

/-- The function on children that end with these statuses. -/
def execute (node : PipeNode) (left : Nat) : Option (Nat × List Ended) :=
  node.executeParent (node.children left)

theorem execute_eq (node : PipeNode) (left : Nat) :
    node.execute left = some (if node.leftFirst then node.right else left, []) := by
  have hne := node.distinct
  cases horder : node.leftFirst with
  | true =>
      simp [execute, executeParent, children, horder, wait, waitpid]
  | false =>
      simp [execute, executeParent, children, horder, wait, waitpid, hne.symm]

/-- The process of a left child that is itself a PIPE node calls `exit` with the
status of the node. -/
def exits (left : Nat) (node : PipeNode) : Nat :=
  waitStatus (((node.execute left).map (·.1)).getD 0)

end PipeNode

/-- The wait status of the process to the left of the last `|`: `first` is the
one of the first command, and the nodes are taken from the innermost on. -/
def leftStatus (first : Nat) (nodes : List PipeNode) : Nat :=
  nodes.foldl PipeNode.exits first

/-- All commands but the last of the pipeline are below the left child of
`node`. -/
theorem pipeline_status_iff (first : Nat) (nodes : List PipeNode) (node : PipeNode) :
    node.execute (leftStatus first nodes) = some (node.right, []) ↔
      node.leftFirst = true ∨ leftStatus first nodes = node.right := by
  rw [node.execute_eq]
  cases node.leftFirst with
  | true => simp
  | false => simp

/-- The right child ends first, and the left one was killed by `SIGPIPE`. -/
theorem rightFirst_status_ne :
    ¬ ∀ (first : Nat) (nodes : List PipeNode) (node : PipeNode),
      node.execute (leftStatus first nodes) = some (node.right, []) := by
  intro hall
  have hstatus := hall (waitStatus 13) []
    { pidLeft := 1, pidRight := 2, right := 0, leftFirst := false, distinct := by decide }
  exact absurd hstatus (by decide)

/-- What `executePipeCommand` leaves is what the parent computes. -/
theorem executePipeCommand_status (environment : Environment) (left right : Run)
    {pidLeft pidRight : Pid} (distinct : pidLeft ≠ pidRight) :
    PipeNode.execute ⟨pidLeft, pidRight, waitStatus right.status,
        environment.reapsLeft [], distinct⟩ (waitStatus left.status) =
      some ((executePipeCommand environment left right).status, []) := by
  rw [PipeNode.execute_eq]
  rfl

end Cs111Labs.Shell
