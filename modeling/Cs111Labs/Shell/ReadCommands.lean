import Mathlib.Data.List.TakeWhile
import Cs111Labs.Shell.BuilderTree

/-!
# Accepted scripts and the trees they give

The token check and the tree builder disagree on where commands end: the check
lets a `;` stand before a newline or `)`, a newline before `(`, and any order of
parentheses.  The tree is complete exactly when no word is missing.
-/

namespace Cs111Labs.Shell

variable {nulls cells command after : List Token} {endCell cell : Token}

/-- The cells that the successive calls read, each with its `ENDCMD_TOKEN`. -/
def commandTokens : List Token → List (List Token)
  | [] => []
  | cell :: cells =>
      if cell.token = .endCmd then [cell] :: commandTokens cells
      else
        match commandTokens cells with
        | [] => []
        | tokens :: rest => (cell :: tokens) :: rest

/--
No word is missing in the commands that are returned.  An empty command ends the
reading; a command that cannot be read is not returned and no later one is.
-/
def AllComplete : List (List Token) → Prop
  | [] => True
  | tokens :: rest =>
      1 < tokens.length → readableFrom false .null tokens = true →
        completeFrom true tokens = true ∧ AllComplete rest

/-! ## No cell of the token array is unset -/

def Written (cells : List Token) : Prop := ∀ cell ∈ cells, cell.token ≠ .null

theorem Written.tail (h : Written cells) : Written cells.tail :=
  fun cell hcell => h cell (List.mem_of_mem_tail hcell)

theorem Written.cons (hcell : cell.token ≠ .null) (h : Written cells) :
    Written (cell :: cells) :=
  List.forall_mem_cons.mpr ⟨hcell, h⟩

theorem Written.addWord (h : Written cells) (word : CString) :
    Written (addWord word cells) := by
  unfold Shell.addWord
  split
  · exact h
  · split
    · exact h.tail.cons (by simp)
    · exact h.cons (by simp)

theorem addToken_cases {tType : TokenType} {cells' : List Token}
    (heq : addToken tType cells = .ok cells') :
    cells' = cells ∨ ∃ token, token ≠ .null ∧
      (cells' = ⟨token, none⟩ :: cells ∨ cells' = overwrite ⟨token, none⟩ cells) := by
  cases tType with
  | halfEndCmd =>
      simp only [addToken] at heq
      split at heq
      · exact .inr ⟨.endCmd, by simp, .inr (Except.ok.inj heq).symm⟩
      · split at heq
        · exact .inl (Except.ok.inj heq).symm
        · exact .inr ⟨.halfEndCmd, by simp, .inl (Except.ok.inj heq).symm⟩
  | pipeline =>
      simp only [addToken] at heq
      split at heq
      · exact .inr ⟨.or, by simp, .inr (Except.ok.inj heq).symm⟩
      · split at heq
        · cases heq
        · exact .inr ⟨.pipeline, by simp, .inl (Except.ok.inj heq).symm⟩
  | halfAnd =>
      simp only [addToken] at heq
      split at heq
      · exact .inr ⟨.and, by simp, .inr (Except.ok.inj heq).symm⟩
      · split at heq
        · cases heq
        · exact .inr ⟨.halfAnd, by simp, .inl (Except.ok.inj heq).symm⟩
  | input | output =>
      simp only [addToken] at heq
      split at heq
      · exact .inr ⟨_, by simp, .inr (Except.ok.inj heq).symm⟩
      · exact .inr ⟨_, by simp, .inl (Except.ok.inj heq).symm⟩
  | semicolon | lbkt | rbkt =>
      exact .inr ⟨_, by simp, .inl (Except.ok.inj heq).symm⟩
  | null | word | and | or | endCmd => cases heq

theorem Written.addToken (h : Written cells) {tType : TokenType}
    {cells' : List Token} (heq : addToken tType cells = .ok cells') :
    Written cells' := by
  rcases addToken_cases heq with rfl | ⟨token, htoken, rfl | rfl⟩
  · exact h
  · exact h.cons htoken
  · exact h.tail.cons htoken

/-- What every word and every token keeps holds of the cells that are read. -/
theorem readByte_keeps {p : List Token → Prop}
    (hword : ∀ word cells, p cells → p (addWord word cells))
    (htoken : ∀ tType cells cells', p cells → addToken tType cells = .ok cells' →
      p cells')
    {s s' : Reader} {nextByte : UInt8} (h : p s.cells)
    (heq : readByte nextByte s = .ok s') : p s'.cells := by
  unfold readByte at heq
  dsimp only at heq
  split at heq
  · exact Except.ok.inj heq ▸ h
  · split at heq
    · split at heq
      · exact Except.ok.inj heq ▸ h
      · split at heq
        · exact Except.ok.inj heq ▸ hword s.wordBuffer s.cells h
        · rename_i tType _
          cases hadd : addToken tType (addWord s.wordBuffer s.cells) with
          | error text =>
              rw [hadd] at heq
              cases heq
          | ok cells =>
              rw [hadd] at heq
              exact Except.ok.inj heq ▸ htoken _ _ _ (hword s.wordBuffer s.cells h) hadd
    · cases heq

theorem readBytes_keeps {p : List Token → Prop}
    (hword : ∀ word cells, p cells → p (addWord word cells))
    (htoken : ∀ tType cells cells', p cells → addToken tType cells = .ok cells' →
      p cells')
    {bytes : List UInt8} {s s' : Reader} (h : p s.cells)
    (heq : readBytes bytes s = .ok s') : p s'.cells := by
  induction bytes generalizing s with
  | nil => exact Except.ok.inj heq ▸ h
  | cons nextByte bytes ih =>
      simp only [readBytes] at heq
      split at heq
      · exact Except.ok.inj heq ▸ h
      · cases hread : readByte nextByte s with
        | error text => simp [hread, bind, Except.bind] at heq
        | ok next =>
            rw [hread] at heq
            exact ih (readByte_keeps hword htoken h hread) heq

theorem readByte_word {byte : UInt8} {s : Reader} (hword : isWordContent byte = true)
    (hoff : s.isComments = false) :
    readByte byte s = .ok { s with wordBuffer := s.wordBuffer ++ [byte] } := by
  have hhash : byte ≠ 35 := by
    rintro rfl
    exact absurd hword (by decide)
  have hignore : ignoreComments byte s.isComments = false := by
    simp [ignoreComments, hhash, hoff]
  have hvalid : isValidChar byte = true := by simp [isValidChar, hword]
  obtain ⟨isComments, wordBuffer, cells⟩ := s
  obtain rfl : isComments = false := hoff
  simp [readByte, hignore, hvalid, hword]

theorem Written.readBytes {bytes : List UInt8} {s s' : Reader}
    (h : Written s.cells) (heq : readBytes bytes s = .ok s') :
    Written s'.cells :=
  readBytes_keeps (fun word _ h => h.addWord word) (fun _ _ _ h => h.addToken) h heq

theorem settle_ne_null (h : cell.token ≠ .null) : (settle cell).token ≠ .null := by
  unfold settle
  split
  · simp
  · exact h

theorem Written.checkCells {skipped : Nat} {before result : List Token}
    (hbefore : Written before) (hcells : Written cells)
    (heq : checkCells skipped before cells = .ok result) : Written result := by
  induction cells generalizing before with
  | nil =>
      obtain rfl := Except.ok.inj heq
      exact fun cell hcell => hbefore cell (List.mem_reverse.mp hcell)
  | cons cell cells ih =>
      simp only [Shell.checkCells] at heq
      obtain ⟨hcell, hcells⟩ := List.forall_mem_cons.mp hcells
      cases hcheck : checkToken cell before cells (before.length < skipped + 1) with
      | error text =>
          rw [hcheck] at heq
          cases heq
      | ok _ =>
          rw [hcheck] at heq
          exact ih (hbefore.cons (settle_ne_null hcell)) hcells heq

theorem written_of_accepted {bytes : List UInt8}
    (h : makeCommandStream bytes = .ok cells) : Written cells := by
  unfold makeCommandStream at h
  cases hread : readBytes bytes {} with
  | error text => simp [hread, bind, Except.bind] at h
  | ok s =>
      have hwritten : Written s.cells :=
        Written.readBytes (s := {}) (fun _ hcell => by simp at hcell) hread
      simp only [hread, bind, Except.bind] at h
      split at h
      · cases h
      · rename_i checked hcheck
        have hsettled : Written (settleLast s.cells).reverse := by
          intro cell hcell
          rw [List.mem_reverse] at hcell
          cases hcells : s.cells with
          | nil => simp [hcells, settleLast] at hcell
          | cons last older =>
              rw [hcells] at hwritten hcell
              rcases List.mem_cons.mp hcell with rfl | hold
              · exact settle_ne_null (hwritten last (by simp))
              · exact hwritten cell (by simp [hold])
        have hchecked : Written checked :=
          Written.checkCells (fun _ hcell => by simp at hcell) hsettled hcheck
        split at h
        · cases h
        · split at h
          · cases h
          · obtain rfl := Except.ok.inj h
            exact fun cell hcell => hchecked cell (List.mem_of_mem_drop hcell)

/-! ## The successive calls -/

/-- The cells of the commands that were read. -/
def Cleared (cells : List Token) : Prop := ∀ cell ∈ cells, cell.token = .null

theorem cleared_nil : Cleared [] := fun _ hcell => by simp at hcell

theorem readCommandStream_eq (after : List Token) (hnulls : Cleared nulls)
    (hcommand : ∀ cell ∈ command, cell.token ≠ .endCmd)
    (hwritten : Written command) (hend : endCell.token = .endCmd) :
    readCommandStream (nulls ++ (command ++ endCell :: after)) =
      if command = [] then some (none, nulls ++ (command ++ endCell :: after))
      else (buildTokens .null (command ++ [endCell]) startBuilder).map fun b =>
        (some ⟨b.heap, b.commandRoot⟩,
          nulls ++ (command ++ [endCell]).map clear ++ endNext after) := by
  have hnext : (command ++ endCell :: after).takeWhile (·.token = .null) = [] ∧
      (command ++ endCell :: after).dropWhile (·.token = .null) =
        command ++ endCell :: after := by
    cases command with
    | nil => simp [hend]
    | cons cell cells => simp [hwritten cell (by simp)]
  have hall : ∀ cell ∈ nulls, decide (cell.token = .null) = true :=
    fun cell hcell => decide_eq_true (hnulls cell hcell)
  have hnot : ∀ cell ∈ command, decide (cell.token ≠ .endCmd) = true :=
    fun cell hcell => decide_eq_true (hcommand cell hcell)
  have hstop : (endCell :: after).takeWhile (·.token ≠ .endCmd) = [] ∧
      (endCell :: after).dropWhile (·.token ≠ .endCmd) = endCell :: after := by
    simp [hend]
  unfold readCommandStream
  rw [List.takeWhile_append_of_pos hall, List.dropWhile_append_of_pos hall,
    hnext.1, hnext.2, List.append_nil]
  dsimp only
  rw [List.takeWhile_append_of_pos hnot, List.dropWhile_append_of_pos hnot,
    hstop.1, hstop.2, List.append_nil]

theorem readCommandStream_unfinished (hnulls : Cleared nulls)
    (hcells : ∀ cell ∈ cells, cell.token ≠ .endCmd) (hwritten : Written cells) :
    readCommandStream (nulls ++ cells) = none := by
  have hall : ∀ cell ∈ nulls, decide (cell.token = .null) = true :=
    fun cell hcell => decide_eq_true (hnulls cell hcell)
  have hdrop : cells.dropWhile (·.token = .null) = cells := by
    cases cells with
    | nil => rfl
    | cons cell cells => simp [hwritten cell (by simp)]
  have hend : cells.dropWhile (·.token ≠ .endCmd) = [] :=
    List.dropWhile_eq_nil_iff.mpr fun cell hcell =>
      decide_eq_true (hcells cell hcell)
  unfold readCommandStream
  dsimp only
  rw [List.dropWhile_append_of_pos hall, hdrop, hend]

/-- An empty command is returned as 0 again and again. -/
theorem not_returned_of_empty {s : List Token} {parsed : Parsed}
    (h : readCommandStream s = some (none, s)) : ¬ Returned s parsed := by
  intro hreturned
  induction hreturned with
  | now heq => simp [h] at heq
  | later heq _ ih =>
      obtain ⟨-, rfl⟩ : none = _ ∧ _ = _ := by simpa [h] using heq
      exact ih h

theorem commandTokens_append (hcommand : ∀ cell ∈ command, cell.token ≠ .endCmd)
    (hend : endCell.token = .endCmd) :
    commandTokens (command ++ endCell :: after) =
      (command ++ [endCell]) :: commandTokens after := by
  induction command with
  | nil => simp [commandTokens, hend]
  | cons cell command ih =>
      obtain ⟨hcell, hcommand⟩ := List.forall_mem_cons.mp hcommand
      simp [commandTokens, hcell, ih hcommand]

theorem commandTokens_unfinished (hcells : ∀ cell ∈ cells, cell.token ≠ .endCmd) :
    commandTokens cells = [] := by
  induction cells with
  | nil => rfl
  | cons cell cells ih =>
      obtain ⟨hcell, hcells⟩ := List.forall_mem_cons.mp hcells
      simp [commandTokens, hcell, ih hcells]

/-- The cells up to the first `ENDCMD_TOKEN`, if there is one. -/
theorem exists_command (cells : List Token) :
    (∀ cell ∈ cells, cell.token ≠ .endCmd) ∨
      ∃ command endCell after, cells = command ++ endCell :: after ∧
        (∀ cell ∈ command, cell.token ≠ .endCmd) ∧ endCell.token = .endCmd := by
  induction cells with
  | nil => exact .inl (by simp)
  | cons cell cells ih =>
      by_cases hcell : cell.token = .endCmd
      · exact .inr ⟨[], cell, cells, rfl, by simp, hcell⟩
      · rcases ih with hnone | ⟨command, endCell, after, rfl, hcommand, hend⟩
        · exact .inl (List.forall_mem_cons.mpr ⟨hcell, hnone⟩)
        · exact .inr ⟨cell :: command, endCell, after, rfl,
            List.forall_mem_cons.mpr ⟨hcell, hcommand⟩, hend⟩

theorem cleared_append (hnulls : Cleared nulls) (cells : List Token) :
    Cleared (nulls ++ cells.map clear) := by
  intro cell hcell
  rcases List.mem_append.mp hcell with hold | hnew
  · exact hnulls cell hold
  · obtain ⟨_, -, rfl⟩ := List.mem_map.mp hnew
    rfl

theorem endNext_of_written (h : Written after) (hne : after ≠ []) :
    endNext after = after := by
  cases after with
  | nil => exact absurd rfl hne
  | cons cell cells =>
      have hcell := h cell (by simp)
      simp [endNext, hcell]

/-- The first command of a stream, as the builder sees it. -/
theorem buildTokens_wellFormed_iff {tokens : List Token} {b : Builder}
    (h : buildTokens .null tokens startBuilder = some b) :
    Parsed.WellFormed ⟨b.heap, b.commandRoot⟩ ↔ completeFrom true tokens = true := by
  obtain ⟨-, hresult⟩ := Built.tokens true tokens Built.start rfl .null
  obtain ⟨t, hbuilt, hiff⟩ := hresult b h
  have hnothing : NothingLost startBuilder (.leaf 0) := by
    intro ptr hptr hne
    obtain rfl : ptr = 0 := by simpa [Foundation.HeapTree.addrs] using hptr
    exact absurd rfl hne
  rw [hbuilt.wellFormed_iff, hiff]
  exact ⟨fun h => h.2, fun h => ⟨hnothing, h⟩⟩

theorem returned_wellFormed_iff (hnulls : Cleared nulls) (hwritten : Written cells) :
    (∀ parsed, Returned (nulls ++ cells) parsed → parsed.WellFormed) ↔
      AllComplete (commandTokens cells) := by
  induction hlength : cells.length using Nat.strong_induction_on
    generalizing nulls cells with
  | _ length ih =>
  rcases exists_command cells with hnone | ⟨command, endCell, after, rfl, hcommand, hend⟩
  · rw [commandTokens_unfinished hnone]
    refine iff_of_true ?_ trivial
    intro parsed hreturned
    have hfault := readCommandStream_unfinished hnulls hnone hwritten
    cases hreturned with
    | now heq => simp [hfault] at heq
    | later heq _ => simp [hfault] at heq
  · rw [commandTokens_append hcommand hend, AllComplete]
    have hwrittenCommand : Written command :=
      fun cell hcell => hwritten cell (by simp [hcell])
    have hwrittenAfter : Written after :=
      fun cell hcell => hwritten cell (by simp [hcell])
    have hread := readCommandStream_eq after hnulls hcommand
      hwrittenCommand hend
    by_cases hempty : command = []
    · subst hempty
      refine iff_of_true ?_ (by simp)
      intro parsed hreturned
      exact absurd hreturned (not_returned_of_empty (by simpa using hread))
    · have hlong : 1 < (command ++ [endCell]).length := by
        have hpos := List.length_pos_of_ne_nil hempty
        simp
        omega
      rw [if_neg hempty] at hread
      have hsome := (Built.tokens true (command ++ [endCell]) Built.start rfl .null).1
      cases hbuild : buildTokens .null (command ++ [endCell]) startBuilder with
      | none =>
          have hunreadable :
              readableFrom false .null (command ++ [endCell]) = false := by
            rw [hbuild] at hsome
            exact hsome.symm
          rw [hbuild] at hread
          refine iff_of_true ?_ (by simp [hunreadable])
          intro parsed hreturned
          cases hreturned with
          | now heq => simp [hread] at heq
          | later heq _ => simp [hread] at heq
      | some b =>
          have hreadable : readableFrom false .null (command ++ [endCell]) = true := by
            rw [hbuild] at hsome
            exact hsome.symm
          rw [hbuild, Option.map_some] at hread
          have hcleared := cleared_append hnulls (command ++ [endCell])
          -- What is returned later is what the rest of the cells gives.
          have hlater : (∀ parsed, Returned
              (nulls ++ (command ++ [endCell]).map clear ++ endNext after) parsed →
                parsed.WellFormed) ↔ AllComplete (commandTokens after) := by
            by_cases hlast : after = []
            · subst hlast
              refine iff_of_true ?_ trivial
              intro parsed hreturned
              have hdone := readCommandStream_eq [] hcleared
                (show ∀ cell ∈ ([] : List Token), cell.token ≠ .endCmd by simp)
                (fun _ hcell => by simp at hcell)
                (show (⟨.endCmd, none⟩ : Token).token = .endCmd from rfl)
              exact absurd hreturned (not_returned_of_empty (by simpa [endNext] using hdone))
            · rw [endNext_of_written hwrittenAfter hlast]
              refine ih after.length ?_ hcleared hwrittenAfter rfl
              rw [← hlength]
              simp
              omega
          rw [← hlater, ← buildTokens_wellFormed_iff hbuild]
          constructor
          · intro hall _ _
            exact ⟨hall _ (.now hread), fun parsed hreturned =>
              hall parsed (.later hread hreturned)⟩
          · intro himp parsed hreturned
            obtain ⟨hfirst, hrest⟩ := himp hlong hreadable
            cases hreturned with
            | now heq =>
                rw [hread] at heq
                simp only [Option.some.injEq, Prod.mk.injEq] at heq
                exact heq.1 ▸ hfirst
            | later heq hreturned =>
                rw [hread] at heq
                simp only [Option.some.injEq, Prod.mk.injEq] at heq
                exact hrest parsed (heq.2 ▸ hreturned)

/-! ## Accepted scripts -/

theorem returnsTrees_iff {bytes : List UInt8}
    (h : makeCommandStream bytes = .ok cells) :
    (∀ parsed, Returned cells parsed → parsed.WellFormed) ↔
      AllComplete (commandTokens cells) :=
  returned_wellFormed_iff cleared_nil
    (written_of_accepted h)

/-- `a;b` -/
theorem returnsTrees_iff_sequence :
    (∀ parsed, Returned [⟨.word, some [97]⟩, ⟨.semicolon, none⟩,
        ⟨.word, some [98]⟩, ⟨.endCmd, none⟩] parsed → parsed.WellFormed) ↔
      AllComplete (commandTokens [⟨.word, some [97]⟩, ⟨.semicolon, none⟩,
        ⟨.word, some [98]⟩, ⟨.endCmd, none⟩]) :=
  returnsTrees_iff (show makeCommandStream [97, 59, 98, 10] = .ok _ from rfl)

/-- `a;` is accepted, and its SEQUENCE node has no second command. -/
theorem trailingSemicolon_not_returnsTrees :
    ¬ ∀ bytes cells, bytes.getLast? = some 10 →
      makeCommandStream bytes = .ok cells →
        ∀ parsed, Returned cells parsed → parsed.WellFormed := by
  intro hall
  have hreturned := hall [97, 59, 10]
    [⟨.word, some [97]⟩, ⟨.semicolon, none⟩, ⟨.endCmd, none⟩] rfl rfl
  have hcomplete := (returned_wellFormed_iff cleared_nil (by simp [Written])).mp
    hreturned
  exact absurd (hcomplete (by decide) (by decide)).1 (by decide)

end Cs111Labs.Shell
