import Cs111Labs.Shell.Command
import Cs111Labs.Shell.ScheduleInvariant

/-!
# The dependency graph of a script

`execute_timetravel_cmd` collects the files of every command and compares them
pairwise.  A command has to wait for every other command whose first output
file it reads or writes, whether that command comes earlier or later in the
script.
-/

namespace Cs111Labs.Shell

open Foundation

/-! ## Files of a command -/

/-- The arrays `output_constrain` and `input_constrain` of a list element. -/
structure Constrains where
  output : List CString := []
  input : List CString := []
  deriving DecidableEq, Repr

/-- The source has room for 100 elements in each array and does not check it. -/
def getConstrains : Command → Constrains → Constrains
  | .binary _ _ left right, files =>
      getConstrains right (getConstrains left files)
  | .simple redirections word, files =>
      ⟨files.output ++ redirections.output.toList,
        files.input ++ redirections.input.toList ++ word⟩
  | .subshell _ body, files => getConstrains body files

def Command.constrains (command : Command) : Constrains :=
  getConstrains command {}

/--
The inner loop from index `j` on, where `i_constrain` is given from `j` on:
`none` if it returns, else what is left for the next turn of the outer loop.
-/
def checkConstrainInner (file : CString) : List CString → Option (List CString)
  | [] => some []
  | other :: rest =>
      if file = other then none else checkConstrainInner file rest

/-- The outer loop.  The source does not set `j` back to 0. -/
def checkConstrain : List CString → List CString → Int
  | [], _ => 0
  | file :: files, iConstrain =>
      match checkConstrainInner file iConstrain with
      | none => 1
      | some rest => checkConstrain files rest

theorem checkConstrainInner_eq_none_iff {file : CString}
    {files : List CString} :
    checkConstrainInner file files = none ↔ file ∈ files := by
  induction files with
  | nil => simp [checkConstrainInner]
  | cons other rest ih =>
      by_cases heq : file = other <;> simp [checkConstrainInner, heq, ih]

theorem checkConstrainInner_eq_some {file : CString}
    {files rest : List CString} (h : checkConstrainInner file files = some rest) :
    rest = [] := by
  induction files with
  | nil => simpa [checkConstrainInner, eq_comm] using h
  | cons other files ih =>
      simp only [checkConstrainInner] at h
      split at h
      · contradiction
      · exact ih h

@[simp] theorem checkConstrain_nil (files : List CString) :
    checkConstrain files [] = 0 := by
  induction files with
  | nil => rfl
  | cons file files ih => simpa [checkConstrain, checkConstrainInner] using ih

/-- Only the first output file takes part in the comparison. -/
theorem checkConstrain_eq_one_iff {oConstrain iConstrain : List CString} :
    checkConstrain oConstrain iConstrain = 1 ↔
      ∃ file ∈ oConstrain.head?, file ∈ iConstrain := by
  cases oConstrain with
  | nil => simp [checkConstrain]
  | cons file files =>
      rw [checkConstrain]
      cases hinner : checkConstrainInner file iConstrain with
      | none => simpa using checkConstrainInner_eq_none_iff.mp hinner
      | some rest =>
          have hmem : file ∉ iConstrain := fun hmem => by
            simp [checkConstrainInner_eq_none_iff.mpr hmem] at hinner
          simp [checkConstrainInner_eq_some hinner, hmem]

/-- The comparison finds out whether the two lists have a string in common. -/
def DecidesIntersection (oConstrain iConstrain : List CString) : Prop :=
  checkConstrain oConstrain iConstrain = 1 ↔ ∃ file ∈ oConstrain, file ∈ iConstrain

theorem decidesIntersection_iff (oConstrain iConstrain : List CString) :
    DecidesIntersection oConstrain iConstrain ↔
      ((∃ file ∈ oConstrain, file ∈ iConstrain) →
        ∃ file ∈ oConstrain.head?, file ∈ iConstrain) := by
  unfold DecidesIntersection
  rw [checkConstrain_eq_one_iff]
  constructor
  · exact fun h => h.mpr
  · intro h
    refine ⟨?_, h⟩
    rintro ⟨file, hfirst, hmem⟩
    exact ⟨file, List.mem_of_mem_head? hfirst, hmem⟩

/-- The second output file is never looked for. -/
theorem secondOutput_not_decidesIntersection :
    ¬ DecidesIntersection [[102], [103]] [[103]] := by
  unfold DecidesIntersection
  decide

/-! ## The matrix -/

variable (commands : List Command)

/-- The list element that `get_ptr` reaches. -/
def getPtr (position : Fin commands.length) : Constrains :=
  (commands.get position).constrains

def constrainGraph (row col : Fin commands.length) : Int :=
  let ptr1 := getPtr commands col
  let ptr2 := getPtr commands row
  if col ≠ row then
    if checkConstrain ptr1.output ptr2.input = 1 ∨
        checkConstrain ptr1.output ptr2.output = 1 then 1
    else 0
  else 0

end Cs111Labs.Shell
