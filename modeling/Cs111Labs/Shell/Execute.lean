import Cs111Labs.Shell.Command

/-!
# Standard execution of a command tree

`execute-command.c` walks the tree and leaves the status of every node in its
`status` member.  A status is what `wait` stores, so a child that calls
`exit (s)` shows up as `256 * (s mod 256)`.  The runs of simple commands are
named by their position in the tree; each of them is run at most once.
-/

namespace Cs111Labs.Shell

open Command

/-- What `wait` reports for a child that called `exit (s)`. -/
def waitStatus (s : Nat) : Nat := 256 * (s % 256)

/--
Everything execution does not decide itself: the exit codes of the simple
commands, and for every PIPE node which child `wait` returns first and how the
two sides interleave.
-/
structure Environment where
  exitCode : Position → Fin 256
  reapsLeft : Position → Bool := fun _ => true
  interleaving : Position → List Bool := fun _ => []

/-- The environment of the child of a node. -/
def Environment.at (environment : Environment) (branch : Branch) :
    Environment where
  exitCode position := environment.exitCode (branch :: position)
  reapsLeft position := environment.reapsLeft (branch :: position)
  interleaving position := environment.interleaving (branch :: position)

/-- The simple commands that were run, in order, and the status left behind. -/
structure Run where
  started : List Position
  status : Nat
  deriving DecidableEq, Repr

/-- The run of a child, seen from its parent. -/
def Run.from (branch : Branch) (run : Run) : Run :=
  { run with started := run.started.map (branch :: ·) }

/-- Two concurrent sequences of runs; `true` lets the first side go on. -/
def interleave {α : Type} : List Bool → List α → List α → List α
  | _, [], second => second
  | _, first, [] => first
  | [], first, second => first ++ second
  | true :: choices, item :: first, second =>
      item :: interleave choices first second
  | false :: choices, first, item :: second =>
      item :: interleave choices first second

def executeAndCommand (left right : Run) : Run :=
  if left.status = 0 then ⟨left.started ++ right.started, right.status⟩
  else left

def executeOrCommand (left right : Run) : Run :=
  if left.status ≠ 0 then ⟨left.started ++ right.started, right.status⟩
  else left

def executeSequenceCommand (left right : Run) : Run :=
  ⟨left.started ++ right.started, right.status⟩

@[simp] theorem Run.from_status (branch : Branch) (run : Run) :
    (run.from branch).status = run.status := rfl

@[simp] theorem Run.from_started (branch : Branch) (run : Run) :
    (run.from branch).started = run.started.map (branch :: ·) := rfl

@[simp] theorem executeAndCommand_status (left right : Run) :
    (executeAndCommand left right).status =
      if left.status = 0 then right.status else left.status := by
  unfold executeAndCommand
  split <;> rfl

@[simp] theorem executeAndCommand_started (left right : Run) :
    (executeAndCommand left right).started =
      left.started ++ if left.status = 0 then right.started else [] := by
  unfold executeAndCommand
  split <;> simp

@[simp] theorem executeOrCommand_status (left right : Run) :
    (executeOrCommand left right).status =
      if left.status = 0 then left.status else right.status := by
  unfold executeOrCommand
  split <;> simp_all

@[simp] theorem executeOrCommand_started (left right : Run) :
    (executeOrCommand left right).started =
      left.started ++ if left.status = 0 then [] else right.started := by
  unfold executeOrCommand
  split <;> simp_all

/--
Both sides are children of the shell that call `exit` with the status of their
own tree.  The second `waitpid` overwrites what the first `wait` stored.
-/
def executePipeCommand (environment : Environment) (left right : Run) : Run :=
  ⟨interleave (environment.interleaving []) left.started right.started,
    if environment.reapsLeft [] then waitStatus right.status
    else waitStatus left.status⟩

/-- The child executes the body and calls `exit` with the status it left. -/
def executeSubshellCommand (body : Run) : Run :=
  ⟨body.started, waitStatus body.status⟩

def executeSimpleCommand (environment : Environment) : Run :=
  ⟨[[]], waitStatus (environment.exitCode [])⟩

def executeCommand : Command → Environment → Run
  | .binary type _ left right, environment =>
      let left := (executeCommand left (environment.at .left)).from .left
      let right := (executeCommand right (environment.at .right)).from .right
      match type with
      | .andCommand => executeAndCommand left right
      | .orCommand => executeOrCommand left right
      | .pipeCommand => executePipeCommand environment left right
      | .sequenceCommand => executeSequenceCommand left right
  | .subshell _ body, environment =>
      executeSubshellCommand
        ((executeCommand body (environment.at .body)).from .body)
  | .simple _ _, environment => executeSimpleCommand environment

def commandStatus (run : Run) : Nat := run.status

/-- `main` returns the status of the last command; a parent sees its low byte. -/
def shellExitCode (run : Run) : Nat := commandStatus run % 256

/-! ## The semantics of `sh` -/

/-- What `sh` does with a tree: the commands it runs and the exit code. -/
structure ShRun where
  started : List Position
  exitCode : Nat
  deriving DecidableEq, Repr

def ShRun.from (branch : Branch) (run : ShRun) : ShRun :=
  { run with started := run.started.map (branch :: ·) }

def shAnd (left right : ShRun) : ShRun :=
  if left.exitCode = 0 then ⟨left.started ++ right.started, right.exitCode⟩
  else left

def shOr (left right : ShRun) : ShRun :=
  if left.exitCode = 0 then left
  else ⟨left.started ++ right.started, right.exitCode⟩

def shSequence (left right : ShRun) : ShRun :=
  ⟨left.started ++ right.started, right.exitCode⟩

/-- The exit code of a pipeline is the one of its last command. -/
def shPipe (environment : Environment) (left right : ShRun) : ShRun :=
  ⟨interleave (environment.interleaving []) left.started right.started,
    right.exitCode⟩

def shExecute : Command → Environment → ShRun
  | .binary type _ left right, environment =>
      let left := (shExecute left (environment.at .left)).from .left
      let right := (shExecute right (environment.at .right)).from .right
      match type with
      | .andCommand => shAnd left right
      | .orCommand => shOr left right
      | .pipeCommand => shPipe environment left right
      | .sequenceCommand => shSequence left right
  | .subshell _ body, environment =>
      (shExecute body (environment.at .body)).from .body
  | .simple _ _, environment => ⟨[[]], environment.exitCode []⟩

@[simp] theorem ShRun.from_exitCode (branch : Branch) (run : ShRun) :
    (run.from branch).exitCode = run.exitCode := rfl

@[simp] theorem ShRun.from_started (branch : Branch) (run : ShRun) :
    (run.from branch).started = run.started.map (branch :: ·) := rfl

@[simp] theorem shAnd_exitCode (left right : ShRun) :
    (shAnd left right).exitCode =
      if left.exitCode = 0 then right.exitCode else left.exitCode := by
  unfold shAnd
  split <;> rfl

@[simp] theorem shAnd_started (left right : ShRun) :
    (shAnd left right).started =
      left.started ++ if left.exitCode = 0 then right.started else [] := by
  unfold shAnd
  split <;> simp

@[simp] theorem shOr_exitCode (left right : ShRun) :
    (shOr left right).exitCode =
      if left.exitCode = 0 then left.exitCode else right.exitCode := by
  unfold shOr
  split <;> rfl

@[simp] theorem shOr_started (left right : ShRun) :
    (shOr left right).started =
      left.started ++ if left.exitCode = 0 then [] else right.started := by
  unfold shOr
  split <;> simp

end Cs111Labs.Shell
