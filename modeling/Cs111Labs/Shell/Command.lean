import Mathlib.Tactic

/-!
# Command trees of the time travel shell

The tree of `struct command` from `command-internals.h`, in its complete form:
every operator node has both children and every node has its type.  The tree
builder works on mutable cells instead; see `Shell.Builder`.
-/

namespace Cs111Labs.Shell

/-- A C string, without its terminating NUL byte. -/
abbrev CString := List UInt8

/-- The values of `enum command_type` that stand for two operands. -/
inductive Operator where
  | andCommand
  | sequenceCommand
  | orCommand
  | pipeCommand
  deriving DecidableEq, Repr

/-- The members `input` and `output` of a node, `none` where the source has 0. -/
structure Redirections where
  input : Option CString := none
  output : Option CString := none
  deriving DecidableEq, Repr

inductive Command where
  | binary (type : Operator) (redirections : Redirections)
      (left right : Command)
  | simple (redirections : Redirections) (word : List CString)
  | subshell (redirections : Redirections) (body : Command)
  deriving DecidableEq, Repr

namespace Command

/-- Trees without PIPE nodes. -/
def PipeFree : Command → Prop
  | binary type _ left right =>
      type ≠ .pipeCommand ∧ left.PipeFree ∧ right.PipeFree
  | simple _ _ => True
  | subshell _ body => body.PipeFree

/-- The way from a node to one of its children. -/
inductive Branch where
  | left
  | right
  | body
  deriving DecidableEq, Repr

/-- A node of a tree, named by the way that leads to it from the root. -/
abbrev Position := List Branch

end Command

end Cs111Labs.Shell
