import Cs111Labs.Shell.ScriptText

/-!
# The successive calls of `read_command_stream`

A call clears the cells that it has read, and the one after the last command
plants an `ENDCMD_TOKEN` behind it.  So the next call starts at the first cell
of the next command, and the calls after the last one find an empty command.
-/

namespace Cs111Labs.Shell

variable {nulls : List Token}

/-- What a number of calls return, one after the other. -/
def calls : Nat → List Token → Option (List (Option Parsed))
  | 0, _ => some []
  | n + 1, s =>
      (readCommandStream s).bind fun (result, rest) =>
        (calls n rest).map (result :: ·)

theorem calls_succ {n : Nat} {s rest : List Token} {result : Option Parsed}
    {more : List (Option Parsed)} (hread : readCommandStream s = some (result, rest))
    (hmore : calls n rest = some more) : calls (n + 1) s = some (result :: more) := by
  rw [calls, hread, Option.bind_some]
  simp only [hmore, Option.map_some]

/-- The cells of one command, with the `ENDCMD_TOKEN` that closes them. -/
structure Segment where
  text : Text .complete
  oneLine : text.OneLine
  closing : Option CString

namespace Segment

def tokens (segment : Segment) : List Token :=
  segment.text.tokens ++ [Token.mk .endCmd segment.closing]

/-- The builder makes the command from these cells and no others. -/
def Builds (segment : Segment) (parsed : Parsed) : Prop :=
  ∃ b, buildTokens .null segment.tokens startBuilder = some b ∧
    parsed = ⟨b.heap, b.commandRoot⟩

theorem exists_builds (segment : Segment) : ∃ parsed, segment.Builds parsed := by
  obtain ⟨b, hbuild⟩ := segment.text.buildTokens_isSome segment.closing
  exact ⟨⟨b.heap, b.commandRoot⟩, b, hbuild, rfl⟩

theorem written (segment : Segment) : Written segment.tokens :=
  List.forall_mem_append.mpr ⟨segment.text.written, by simp⟩

/-- A call that finds the segment first. -/
theorem readCommandStream_eq_some (segment : Segment) {parsed : Parsed}
    (hbuilds : segment.Builds parsed) (hnulls : Cleared nulls)
    (after : List Token) :
    readCommandStream (nulls ++ (segment.tokens ++ after)) =
      some (some parsed, nulls ++ segment.tokens.map clear ++ endNext after) := by
  obtain ⟨b, hbuild, rfl⟩ := hbuilds
  rw [tokens, List.append_assoc, List.singleton_append,
    readCommandStream_eq after hnulls
      ((Text.oneLine_iff segment.text).mp segment.oneLine) segment.text.written rfl,
    if_neg segment.text.tokens_ne_nil]
  rw [tokens] at hbuild
  rw [hbuild]
  rfl

end Segment

/-- The token array of a script. -/
def streamOf (segments : List Segment) : List Token :=
  segments.flatMap Segment.tokens

/-- Behind the last command 0 is returned again and again. -/
theorem calls_end (hnulls : Cleared nulls) (n : Nat) :
    calls n (nulls ++ [⟨.endCmd, none⟩]) = some (List.replicate n none) := by
  have hread := readCommandStream_eq [] hnulls
    (show ∀ cell ∈ ([] : List Token), cell.token ≠ .endCmd by simp)
    (fun _ hcell => by simp at hcell)
    (show (⟨.endCmd, none⟩ : Token).token = .endCmd from rfl)
  rw [if_pos rfl, List.nil_append] at hread
  induction n with
  | zero => rfl
  | succ n ih => exact calls_succ hread ih

/-- The calls on what is left of a script. -/
theorem calls_cleared (hnulls : Cleared nulls) (first : Segment)
    (rest : List Segment) (n : Nat) :
    ∃ parsed, List.Forall₂ Segment.Builds (first :: rest) parsed ∧
      calls ((first :: rest).length + n) (nulls ++ streamOf (first :: rest)) =
        some (parsed.map some ++ List.replicate n none) := by
  induction rest generalizing nulls first with
  | nil =>
      obtain ⟨parsed, hbuilds⟩ := first.exists_builds
      have hread := first.readCommandStream_eq_some hbuilds hnulls []
      have hcleared := cleared_append hnulls first.tokens
      refine ⟨[parsed], .cons hbuilds .nil, ?_⟩
      rw [List.length_singleton, Nat.add_comm]
      exact calls_succ hread (calls_end hcleared n)
  | cons second rest ih =>
      obtain ⟨parsed, hbuilds⟩ := first.exists_builds
      have hread := first.readCommandStream_eq_some hbuilds hnulls
        (streamOf (second :: rest))
      have hwritten : Written (streamOf (second :: rest)) := by
        intro cell hcell
        obtain ⟨segment, -, hmem⟩ := List.mem_flatMap.mp hcell
        exact segment.written cell hmem
      have hne : streamOf (second :: rest) ≠ [] := by
        simp [streamOf, Segment.tokens]
      rw [endNext_of_written hwritten hne] at hread
      obtain ⟨parsedRest, hall, hcalls⟩ :=
        ih (cleared_append hnulls first.tokens) second
      refine ⟨parsed :: parsedRest, .cons hbuilds hall, ?_⟩
      rw [List.length_cons, Nat.succ_add]
      exact calls_succ hread hcalls

/-- Every command is returned once, in the order of the script, and built from
its own cells; after the last one 0 is returned. -/
theorem calls_streamOf (first : Segment) (rest : List Segment) (n : Nat) :
    ∃ parsed, List.Forall₂ Segment.Builds (first :: rest) parsed ∧
      calls ((first :: rest).length + n) (streamOf (first :: rest)) =
        some (parsed.map some ++ List.replicate n none) :=
  calls_cleared cleared_nil first rest n

end Cs111Labs.Shell
