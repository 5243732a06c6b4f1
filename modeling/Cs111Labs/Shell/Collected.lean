import Cs111Labs.Shell.Constrain

/-!
# What `get_constrains` collects

The arrays have a fixed size, and the redirections of a subshell are not looked
at.  `getConstrains` is what the arrays hold as long as they are large enough.
-/

namespace Cs111Labs.Shell

/-- `buffer_size` of `execute_timetravel_cmd` -/
def bufferSize : Nat := 100

/-- Store at the index that the array is filled up to; `none` is a write past
its end. -/
def putFile (array : List CString) (file : CString) : Option (List CString) :=
  if array.length < bufferSize then some (array ++ [file]) else none

/-- `get_constrains` on the allocated arrays. -/
def collectConstrains : Command → Constrains → Option Constrains
  | .binary _ _ left right, files =>
      (collectConstrains left files).bind (collectConstrains right)
  | .simple redirections word, files =>
      (redirections.output.toList.foldlM putFile files.output).bind fun output =>
        ((redirections.input.toList ++ word).foldlM putFile files.input).map
          fun input => ⟨output, input⟩
  | .subshell _ body, files => collectConstrains body files

/-! ## The files of a tree -/

namespace Command

/-- The simple commands, with their redirections. -/
def simples : Command → List (Redirections × List CString)
  | binary _ _ left right => left.simples ++ right.simples
  | simple redirections word => [(redirections, word)]
  | subshell _ body => body.simples

/-- The redirections of the subshells. -/
def subshells : Command → List Redirections
  | binary _ _ left right => left.subshells ++ right.subshells
  | simple _ _ => []
  | subshell redirections body => redirections :: body.subshells

/-- The redirections anywhere in the tree. -/
def allRedirections (c : Command) : List Redirections :=
  c.simples.map (·.1) ++ c.subshells

def words (c : Command) : List CString := c.simples.flatMap (·.2)

def simpleOutputs (c : Command) : List CString :=
  c.simples.filterMap (·.1.output)

def simpleInputs (c : Command) : List CString :=
  c.simples.flatMap fun (redirections, word) => redirections.input.toList ++ word

end Command

variable {c : Command} {files : Constrains}

/-- Every file is collected, and no write goes past an array. -/
def CollectsEveryFile (c : Command) : Prop :=
  ∃ files, collectConstrains c {} = some files ∧
    (∀ file, file ∈ files.output ↔
      ∃ redirections ∈ c.allRedirections, redirections.output = some file) ∧
    ∀ file, file ∈ files.input ↔ file ∈ c.words ∨
      ∃ redirections ∈ c.allRedirections, redirections.input = some file

/-- The arrays are large enough, and a file that a subshell is redirected to or
from is also one of a simple command. -/
structure Collectable (c : Command) : Prop where
  outputs : c.simpleOutputs.length ≤ bufferSize
  inputs : c.simpleInputs.length ≤ bufferSize
  subshellOutputs : ∀ redirections ∈ c.subshells, ∀ file,
    redirections.output = some file → file ∈ c.simpleOutputs
  subshellInputs : ∀ redirections ∈ c.subshells, ∀ file,
    redirections.input = some file → file ∈ c.simpleInputs

/-! ## The arrays -/

def Constrains.Fits (files : Constrains) : Prop :=
  files.output.length ≤ bufferSize ∧ files.input.length ≤ bufferSize

instance (files : Constrains) : Decidable files.Fits := by
  unfold Constrains.Fits
  infer_instance

theorem foldlM_putFile (list array : List CString) (h : array.length ≤ bufferSize) :
    list.foldlM putFile array =
      if (array ++ list).length ≤ bufferSize then some (array ++ list) else none := by
  induction list generalizing array with
  | nil => simp [h]
  | cons file list ih =>
      rw [List.foldlM_cons, putFile]
      split
      · rename_i hlt
        rw [Option.bind_eq_bind, Option.bind_some, ih _ (by simpa using hlt)]
        simp
      · rename_i hfull
        rw [if_neg]
        · rfl
        · rw [List.length_append, List.length_cons]
          omega

theorem getConstrains_eq (c : Command) (files : Constrains) :
    getConstrains c files =
      ⟨files.output ++ c.simpleOutputs, files.input ++ c.simpleInputs⟩ := by
  induction c generalizing files with
  | binary type redirections left right hleft hright =>
      rw [getConstrains, hleft, hright]
      simp [Command.simpleOutputs, Command.simpleInputs, Command.simples]
  | simple redirections word =>
      cases houtput : redirections.output <;>
        simp [getConstrains, Command.simpleOutputs, Command.simpleInputs,
          Command.simples, houtput]
  | subshell redirections body ih =>
      rw [getConstrains, ih]
      rfl

/-- Files that do not fit do not fit with more files either. -/
theorem Constrains.Fits.of_getConstrains (h : (getConstrains c files).Fits) :
    files.Fits := by
  rw [getConstrains_eq] at h
  obtain ⟨houtput, hinput⟩ := h
  rw [List.length_append] at houtput hinput
  exact ⟨by omega, by omega⟩

theorem collectConstrains_eq (c : Command) (h : files.Fits) :
    collectConstrains c files =
      if (getConstrains c files).Fits then some (getConstrains c files) else none := by
  induction c generalizing files with
  | binary type redirections left right hleft hright =>
      rw [collectConstrains, getConstrains, hleft h]
      split
      · rename_i hfits
        rw [Option.bind_some, hright hfits]
      · rename_i hfull
        rw [Option.bind_none, if_neg fun hfits => hfull hfits.of_getConstrains]
  | simple redirections word =>
      rw [collectConstrains, foldlM_putFile _ _ h.1, foldlM_putFile _ _ h.2,
        getConstrains, List.append_assoc]
      unfold Constrains.Fits
      dsimp only
      split <;> split <;> simp_all
  | subshell redirections body ih => exact ih h

/-! ## Complete collections -/

theorem mem_simpleOutputs {file : CString} :
    file ∈ c.simpleOutputs ↔
      ∃ entry ∈ c.simples, entry.1.output = some file := by
  simp [Command.simpleOutputs]

theorem mem_simpleInputs {file : CString} :
    file ∈ c.simpleInputs ↔ file ∈ c.words ∨
      ∃ entry ∈ c.simples, entry.1.input = some file := by
  simp only [Command.simpleInputs, Command.words, List.mem_flatMap,
    List.mem_append, Option.mem_toList]
  constructor
  · rintro ⟨entry, hmem, hinput | hword⟩
    · exact .inr ⟨entry, hmem, hinput⟩
    · exact .inl ⟨entry, hmem, hword⟩
  · rintro (⟨entry, hmem, hword⟩ | ⟨entry, hmem, hinput⟩)
    · exact ⟨entry, hmem, .inr hword⟩
    · exact ⟨entry, hmem, .inl hinput⟩

/-- Redirections are on simple commands and on subshells. -/
theorem exists_allRedirections {p : Redirections → Prop} :
    (∃ redirections ∈ c.allRedirections, p redirections) ↔
      (∃ entry ∈ c.simples, p entry.1) ∨ ∃ redirections ∈ c.subshells, p redirections := by
  simp only [Command.allRedirections, List.mem_append, or_and_right, exists_or,
    List.mem_map, exists_exists_and_eq_and]

theorem collectsEveryFile_iff (c : Command) :
    CollectsEveryFile c ↔ Collectable c := by
  have hcollect : collectConstrains c {} = if (getConstrains c {}).Fits then
      some (getConstrains c {}) else none :=
    collectConstrains_eq c ⟨Nat.zero_le _, Nat.zero_le _⟩
  rw [getConstrains_eq] at hcollect
  simp only [List.nil_append] at hcollect
  constructor
  · rintro ⟨files, hsome, houtput, hinput⟩
    rw [hcollect] at hsome
    split at hsome
    · rename_i hfits
      obtain rfl := Option.some.inj hsome
      refine ⟨hfits.1, hfits.2, ?_, ?_⟩
      · intro redirections hmem file hfile
        exact (houtput file).mpr
          (exists_allRedirections.mpr (.inr ⟨redirections, hmem, hfile⟩))
      · intro redirections hmem file hfile
        exact (hinput file).mpr
          (.inr (exists_allRedirections.mpr (.inr ⟨redirections, hmem, hfile⟩)))
    · cases hsome
  · intro h
    refine ⟨_, hcollect.trans (if_pos ⟨h.outputs, h.inputs⟩), ?_, ?_⟩
    · intro file
      rw [exists_allRedirections, mem_simpleOutputs]
      refine ⟨.inl, ?_⟩
      rintro (hsimple | ⟨redirections, hmem, hfile⟩)
      · exact hsimple
      · exact mem_simpleOutputs.mp (h.subshellOutputs redirections hmem file hfile)
    · intro file
      rw [exists_allRedirections, mem_simpleInputs]
      refine ⟨?_, ?_⟩
      · rintro (hword | hsimple)
        · exact .inl hword
        · exact .inr (.inl hsimple)
      · rintro (hword | hsimple | ⟨redirections, hmem, hfile⟩)
        · exact .inl hword
        · exact .inr hsimple
        · exact mem_simpleInputs.mp (h.subshellInputs redirections hmem file hfile)

/-- The output file of `(a)>f` is not seen. -/
theorem subshellOutput_not_collectsEveryFile :
    ¬ ∀ c, CollectsEveryFile c := by
  intro hall
  obtain ⟨files, hsome, houtput, -⟩ :=
    hall (.subshell { output := some [102] } (.simple {} [[97]]))
  obtain rfl := Option.some.inj hsome
  have hmem := (houtput [102]).mpr ⟨{ output := some [102] },
    by simp [Command.allRedirections, Command.subshells, Command.simples], rfl⟩
  simp at hmem

end Cs111Labs.Shell
