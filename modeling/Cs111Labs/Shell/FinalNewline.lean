import Cs111Labs.Shell.ReadCommands
import Cs111Labs.Shell.Subset

/-!
# Scripts without a final newline

A word becomes a cell when the byte after it is read.  At the end of the input
there is no such byte, so the last word of the script is lost, and no newline
closes the command it stands in.
-/

namespace Cs111Labs.Shell

variable {nulls cells : List Token} {cell : Token} {trees : List Command}

/-! ## The commands of a script -/

/-- The calls return these trees and then 0. -/
inductive Yields : List Token → List Command → Prop
  | done {s rest : List Token} : readCommandStream s = some (none, rest) → Yields s []
  | next {s rest : List Token} {parsed : Parsed} {c : Command} {cs : List Command} :
      readCommandStream s = some (some parsed, rest) →
      Stores parsed.heap parsed.commandRoot c → Yields rest cs → Yields s (c :: cs)

/-- The script is accepted, and it is read as these trees. -/
def ReadsAs (bytes : List UInt8) (trees : List Command) : Prop :=
  ∃ cells, makeCommandStream bytes = .ok cells ∧ Yields cells trees

/-- The commands before the first empty one -/
def fullCommands (cells : List Token) : List (List Token) :=
  (commandTokens cells).takeWhile fun tokens => 1 < tokens.length

theorem Yields.length_eq {s : List Token} (h : Yields s trees)
    (hs : s = nulls ++ cells) (hnulls : Cleared nulls) (hwritten : Written cells) :
    trees.length = (fullCommands cells).length := by
  induction h generalizing nulls cells with
  | @done s rest hread =>
      subst hs
      rcases exists_command cells with hnone | ⟨command, endCell, after, rfl, hcommand, hend⟩
      · simp [readCommandStream_unfinished hnulls hnone hwritten] at hread
      · have hwritten' : Written command := fun cell hcell => hwritten cell (by simp [hcell])
        rw [readCommandStream_eq after hnulls hcommand hwritten' hend] at hread
        split at hread
        · rename_i hempty
          rw [fullCommands, commandTokens_append hcommand hend, hempty]
          simp
        · obtain ⟨b, -, hb⟩ := Option.map_eq_some_iff.mp hread
          simp at hb
  | @next s rest parsed c cs hread hstores hyields ih =>
      subst hs
      rcases exists_command cells with hnone | ⟨command, endCell, after, rfl, hcommand, hend⟩
      · simp [readCommandStream_unfinished hnulls hnone hwritten] at hread
      · have hwritten' : Written command := fun cell hcell => hwritten cell (by simp [hcell])
        have hwrittenAfter : Written after := fun cell hcell => hwritten cell (by simp [hcell])
        rw [readCommandStream_eq after hnulls hcommand hwritten' hend] at hread
        split at hread
        · simp at hread
        · rename_i hne
          obtain ⟨b, -, hb⟩ := Option.map_eq_some_iff.mp hread
          have hrest : rest = nulls ++ (command ++ [endCell]).map clear ++ endNext after :=
            (Prod.mk.inj hb).2.symm
          have hcleared := cleared_append hnulls (command ++ [endCell])
          have hlong : 1 < (command ++ [endCell]).length := by
            have hpos := List.length_pos_of_ne_nil hne
            simpa using hpos
          have hcount : (fullCommands (command ++ endCell :: after)).length =
              (fullCommands after).length + 1 := by
            rw [fullCommands, commandTokens_append hcommand hend,
              List.takeWhile_cons_of_pos (by simpa using hlong)]
            rfl
          rw [List.length_cons, hcount]
          by_cases hlast : after = []
          · subst hlast
            rw [ih hrest hcleared (by simp [Written, endNext])]
            rfl
          · rw [endNext_of_written hwrittenAfter hlast] at hrest
            rw [ih hrest hcleared hwrittenAfter]

/-! ## No two newline cells in a row -/

/-- A newline cell has no newline cell beside it. -/
def Spread : List Token → Prop
  | [] => True
  | cell :: cells =>
      (cell.token.isNewline = true → (tokenAt cells).isNewline = false) ∧ Spread cells

theorem Spread.cons (h : Spread cells) (hcell : cell.token.isNewline = false) :
    Spread (cell :: cells) :=
  ⟨fun hnewline => absurd hnewline (by simp [hcell]), h⟩

theorem Spread.tail (h : Spread cells) : Spread cells.tail := by
  cases cells with
  | nil => exact h
  | cons cell cells => exact h.2

theorem Spread.addWord (h : Spread cells) (word : CString) :
    Spread (addWord word cells) := by
  unfold Shell.addWord
  split
  · exact h
  · split
    · exact h.tail.cons rfl
    · exact h.cons rfl

theorem Spread.next (h : Spread cells) (hcell : (tokenAt cells).isNewline = true) :
    (tokenAt cells.tail).isNewline = false := by
  cases cells with
  | nil => simp [tokenAt, TokenType.isNewline] at hcell
  | cons cell cells => exact h.1 hcell

theorem Spread.addToken (h : Spread cells) {tType : TokenType} {cells' : List Token}
    (heq : addToken tType cells = .ok cells') : Spread cells' := by
  cases tType with
  | halfEndCmd =>
      simp only [Shell.addToken] at heq
      split at heq
      · rename_i hhalf
        obtain rfl := Except.ok.inj heq
        exact ⟨fun _ => h.next (by simp [hhalf, TokenType.isNewline]), h.tail⟩
      · split at heq
        · exact Except.ok.inj heq ▸ h
        · rename_i hhalf hend
          obtain rfl := Except.ok.inj heq
          exact ⟨fun _ => by simp [TokenType.isNewline, hhalf, hend], h⟩
  | pipeline | halfAnd =>
      simp only [Shell.addToken] at heq
      split at heq
      · exact Except.ok.inj heq ▸ h.tail.cons rfl
      · split at heq
        · cases heq
        · exact Except.ok.inj heq ▸ h.cons rfl
  | input | output =>
      simp only [Shell.addToken] at heq
      split at heq
      · exact Except.ok.inj heq ▸ h.tail.cons rfl
      · exact Except.ok.inj heq ▸ h.cons rfl
  | semicolon | lbkt | rbkt => exact Except.ok.inj heq ▸ h.cons rfl
  | null | word | and | or | endCmd => cases heq

theorem Spread.readBytes {bytes : List UInt8} {s s' : Reader} (h : Spread s.cells)
    (heq : readBytes bytes s = .ok s') : Spread s'.cells :=
  readBytes_keeps (fun word _ h => h.addWord word) (fun _ _ _ h => h.addToken) h heq

/-! ## No command is empty -/

/-- Oldest cell first: no `ENDCMD_TOKEN` comes right after another one, nor at
the start if `start` holds. -/
def Solid : Bool → List Token → Prop
  | _, [] => True
  | start, cell :: cells =>
      (cell.token = .endCmd → start = false) ∧ Solid (cell.token = .endCmd) cells

def endsIn (start : Bool) (cells : List Token) : Bool :=
  cells.foldl (fun _ cell => decide (cell.token = .endCmd)) start

theorem solid_append (start : Bool) (first rest : List Token) :
    Solid start (first ++ rest) ↔ Solid start first ∧ Solid (endsIn start first) rest := by
  induction first generalizing start with
  | nil => simp [Solid, endsIn]
  | cons cell first ih =>
      rw [List.cons_append, Solid, Solid, ih, and_assoc]
      rfl

theorem solid_dropWhile (start : Bool) (h : Solid start cells) :
    Solid true (cells.dropWhile fun cell => cell.token = .endCmd) := by
  induction cells generalizing start with
  | nil => exact h
  | cons cell cells ih =>
      by_cases hcell : cell.token = .endCmd
      · rw [List.dropWhile_cons_of_pos (by simpa using hcell)]
        exact ih _ h.2
      · rw [List.dropWhile_cons_of_neg (by simpa using hcell)]
        exact ⟨fun hend => absurd hend hcell, h.2⟩

theorem fullCommands_of_solid (h : Solid true cells) :
    fullCommands cells = commandTokens cells := by
  induction hlength : cells.length using Nat.strong_induction_on generalizing cells with
  | _ length ih =>
  rcases exists_command cells with hnone | ⟨command, endCell, after, rfl, hcommand, hend⟩
  · rw [fullCommands, commandTokens_unfinished hnone]
    rfl
  · obtain ⟨-, hrest⟩ := (solid_append true command (endCell :: after)).mp h
    have hne : command ≠ [] := by
      rintro rfl
      exact absurd (hrest.1 hend) (by simp [endsIn])
    have hlong : 1 < (command ++ [endCell]).length := by
      have hpos := List.length_pos_of_ne_nil hne
      simpa using hpos
    have hafter : Solid true after := by simpa [hend] using hrest.2
    rw [fullCommands, commandTokens_append hcommand hend,
      List.takeWhile_cons_of_pos (by simpa using hlong)]
    congr 1
    refine ih after.length ?_ hafter rfl
    rw [← hlength]
    simp
    omega

theorem settle_eq_endCmd_iff (cell : Token) :
    (settle cell).token = .endCmd ↔ cell.token.isNewline = true := by
  unfold settle
  cases hcell : cell.token <;> simp [TokenType.isNewline, hcell]

theorem Spread.solid (h : Spread cells) :
    Solid false (cells.reverse.map settle) ∧
      endsIn false (cells.reverse.map settle) = (tokenAt cells).isNewline := by
  induction cells with
  | nil => exact ⟨trivial, rfl⟩
  | cons cell cells ih =>
      obtain ⟨hsolid, hends⟩ := ih h.2
      rw [List.reverse_cons, List.map_append, List.map_singleton, solid_append]
      refine ⟨⟨hsolid, fun hend => ?_, trivial⟩, ?_⟩
      · rw [hends]
        exact h.1 ((settle_eq_endCmd_iff cell).mp hend)
      · rw [endsIn, List.foldl_append]
        simp only [List.foldl_cons, List.foldl_nil, settle_eq_endCmd_iff, tokenAt]
        simp

/-! ## The accepted cells -/

theorem settleLast_settle (cells : List Token) :
    (settleLast cells).reverse.map settle = cells.reverse.map settle := by
  cases cells with
  | nil => rfl
  | cons cell cells =>
      have hsettle : settle (settle cell) = settle cell := by
        unfold settle
        split
        · simp
        · rfl
      simp [settleLast, hsettle]

/-- The cells behind the newlines at the start -/
def acceptedCells (cells : List Token) : List Token :=
  (cells.reverse.map settle).dropWhile fun cell => cell.token = .endCmd

theorem drop_newlines (cells : List Token) :
    (cells.map settle).drop
        (cells.takeWhile fun cell => cell.token.isNewline).length =
      (cells.map settle).dropWhile fun cell => cell.token = .endCmd := by
  induction cells with
  | nil => rfl
  | cons cell cells ih =>
      cases hcell : cell.token.isNewline with
      | true =>
          have hend := (settle_eq_endCmd_iff cell).mpr hcell
          simpa [hcell, hend] using ih
      | false =>
          have hend : (settle cell).token ≠ .endCmd := by
            rw [ne_eq, settle_eq_endCmd_iff, hcell]
            simp
          simp [hcell, hend]

theorem makeCommandStream_eq_ok {bytes : List UInt8}
    (h : makeCommandStream bytes = .ok cells) :
    ∃ s skipped checked, readBytes bytes {} = .ok s ∧
      checkCells skipped [] (settleLast s.cells).reverse = .ok checked ∧
      cells = acceptedCells s.cells := by
  unfold makeCommandStream at h
  cases hread : readBytes bytes {} with
  | error text => simp [hread, bind, Except.bind] at h
  | ok s =>
      simp only [hread, bind, Except.bind] at h
      split at h
      · cases h
      · rename_i checked hcheck
        have hchecked := checkCells_eq_ok hcheck
        rw [List.reverse_nil, List.nil_append, settleLast_settle] at hchecked
        split at h
        · cases h
        · split at h
          · cases h
          · refine ⟨s, _, checked, rfl, hcheck, ?_⟩
            rw [← Except.ok.inj h, hchecked, acceptedCells]
            exact drop_newlines s.cells.reverse

/-- Every cell behind a list of cells is checked as well. -/
theorem checkCells_append {skipped : Nat} {before first rest checked : List Token}
    (h : checkCells skipped before (first ++ rest) = .ok checked) :
    ∃ before', checkCells skipped before' rest = .ok checked := by
  induction first generalizing before with
  | nil => exact ⟨before, h⟩
  | cons cell first ih =>
      simp only [List.cons_append, checkCells] at h
      cases hcheck : checkToken cell before (first ++ rest) (before.length < skipped + 1) with
      | error text => rw [hcheck] at h; cases h
      | ok _ =>
          rw [hcheck] at h
          exact ih h

/-- An operator that stands before the last newline is refused. -/
theorem checkToken_before_end {before after : List Token} {atStart : Bool}
    (hcell : cell.token.absorbsNewline = true) (hend : tokenAt after = .endCmd) :
    (checkToken cell before after atStart).isOk = false := by
  have hsides : checkTwosides before after atStart = true := by
    simp [checkTwosides, hend]
  cases htoken : cell.token <;>
    simp [TokenType.absorbsNewline, htoken] at hcell <;>
    simp [checkToken, htoken, checkOperator, hsides, Except.isOk, Except.toBool]

theorem checkCells_absorbing {skipped : Nat} {cells checked : List Token}
    (h : checkCells skipped [] (settleLast cells).reverse = .ok checked)
    (hnewline : (tokenAt cells).isNewline = true) :
    (tokenAt cells.tail).absorbsNewline = false := by
  match cells with
  | [] => simp [tokenAt, TokenType.isNewline] at hnewline
  | [_] => rfl
  | newline :: cell :: older =>
      by_contra hcell
      have hcell : cell.token.absorbsNewline = true := Bool.eq_true_of_not_eq_false hcell
      have hend : (settle newline).token = .endCmd :=
        (settle_eq_endCmd_iff newline).mpr hnewline
      rw [settleLast, List.reverse_cons, List.reverse_cons, List.append_assoc] at h
      obtain ⟨before, hrest⟩ := checkCells_append h
      simp only [List.singleton_append, checkCells] at hrest
      have hbad : (checkToken cell before [settle newline]
          (before.length < skipped + 1)).isOk = false := checkToken_before_end hcell hend
      cases hcheck : checkToken cell before [settle newline]
          (before.length < skipped + 1) with
      | error text => rw [hcheck] at hrest; cases hrest
      | ok _ => rw [hcheck] at hbad; cases hbad

/-! ## The last word -/

/-- The last byte belongs to a word that is not in a comment. -/
def EndsInWord (bytes : List UInt8) : Prop :=
  ∃ before last, bytes = before ++ [last] ∧ isWordContent last = true ∧
    before.foldl (fun isComments byte => ignoreComments byte isComments) false = false

theorem readBytes_append {first : List UInt8} (h : 255 ∉ first) (rest : List UInt8)
    (s : Reader) :
    readBytes (first ++ rest) s = readBytes first s >>= readBytes rest := by
  induction first generalizing s with
  | nil => rfl
  | cons byte first ih =>
      have hbyte := (List.ne_of_not_mem_cons h).symm
      have hfirst := List.not_mem_of_not_mem_cons h
      rw [List.cons_append, readBytes, readBytes, if_neg hbyte, if_neg hbyte]
      cases hread : readByte byte s with
      | error text => rfl
      | ok s' => exact ih hfirst s'

theorem readByte_isComments {byte : UInt8} {s s' : Reader}
    (h : readByte byte s = .ok s') :
    s'.isComments = ignoreComments byte s.isComments := by
  unfold readByte at h
  dsimp only at h
  split at h
  · rw [← Except.ok.inj h]
  · split at h
    · split at h
      · rw [← Except.ok.inj h]
      · split at h
        · rw [← Except.ok.inj h]
        · rename_i tType _
          cases hadd : addToken tType (addWord s.wordBuffer s.cells) with
          | error text => rw [hadd] at h; cases h
          | ok cells => rw [hadd] at h; rw [← Except.ok.inj h]
    · cases h

theorem readBytes_isComments {bytes : List UInt8} (h255 : 255 ∉ bytes) {s s' : Reader}
    (h : readBytes bytes s = .ok s') :
    s'.isComments =
      bytes.foldl (fun isComments byte => ignoreComments byte isComments) s.isComments := by
  induction bytes generalizing s with
  | nil => rw [← Except.ok.inj h]; rfl
  | cons byte bytes ih =>
      have hbytes := List.not_mem_of_not_mem_cons h255
      rw [readBytes, if_neg (List.ne_of_not_mem_cons h255).symm] at h
      cases hread : readByte byte s with
      | error text => rw [hread] at h; cases h
      | ok next =>
          rw [hread] at h
          rw [ih hbytes h, readByte_isComments hread, List.foldl_cons]

/-- The word is still in the buffer when the input ends. -/
theorem EndsInWord.pending {bytes : List UInt8} (h : EndsInWord bytes)
    (h255 : 255 ∉ bytes) {s : Reader} (hread : readBytes bytes {} = .ok s) :
    s.wordBuffer ≠ [] ∧ s.isComments = false := by
  obtain ⟨before, last, rfl, hlast, hcomments⟩ := h
  have hbefore : 255 ∉ before := fun hmem => h255 (by simp [hmem])
  have hne : last ≠ 255 := fun heq => h255 (by simp [heq])
  rw [readBytes_append hbefore] at hread
  cases hfirst : readBytes before {} with
  | error text => rw [hfirst] at hread; cases hread
  | ok s' =>
      rw [hfirst] at hread
      have hoff : s'.isComments = false :=
        (readBytes_isComments hbefore hfirst).trans hcomments
      have hlast : readBytes [last] s' =
          .ok { s' with wordBuffer := s'.wordBuffer ++ [last] } := by
        rw [readBytes, if_neg hne, readByte_word hlast hoff]
        rfl
      obtain rfl := Except.ok.inj (hlast.symm.trans hread)
      exact ⟨by simp, hoff⟩

/-- The newline adds the word and closes the command. -/
theorem readByte_newline {s : Reader} (hword : s.wordBuffer ≠ [])
    (hoff : s.isComments = false) :
    ∃ older, (older = s.cells ∨ ((tokenAt s.cells).isNewline = true ∧
        (tokenAt s.cells.tail).absorbsNewline = true)) ∧
      readByte 10 s = .ok { s with
        wordBuffer := []
        cells := ⟨.halfEndCmd, none⟩ :: ⟨.word, some s.wordBuffer⟩ :: older } := by
  obtain ⟨isComments, wordBuffer, cells⟩ := s
  obtain rfl : isComments = false := hoff
  have hword : wordBuffer ≠ [] := hword
  have hread : readByte 10 ⟨false, wordBuffer, cells⟩ =
      (addToken .halfEndCmd (addWord wordBuffer cells)).map fun cells =>
        ⟨false, [], cells⟩ := rfl
  rw [hread, addWord, if_neg hword]
  by_cases habsorbs : ((tokenAt cells).isNewline && (tokenAt cells.tail).absorbsNewline) = true
  · rw [if_pos habsorbs]
    exact ⟨cells.tail, .inr (by simpa using habsorbs), rfl⟩
  · rw [if_neg habsorbs]
    exact ⟨cells, .inl rfl, rfl⟩

/-! ## With and without the newline -/

theorem commandTokens_append_closed (cells : List Token) {word closing : Token}
    (hword : word.token ≠ .endCmd) (hclosing : closing.token = .endCmd) :
    (commandTokens (cells ++ [word, closing])).length =
      (commandTokens cells).length + 1 := by
  induction hlength : cells.length using Nat.strong_induction_on generalizing cells with
  | _ length ih =>
  rcases exists_command cells with hnone | ⟨command, endCell, after, rfl, hcommand, hend⟩
  · have hall : ∀ cell ∈ cells ++ [word], cell.token ≠ .endCmd :=
      List.forall_mem_append.mpr ⟨hnone, by simpa using hword⟩
    have hsplit : cells ++ [word, closing] = (cells ++ [word]) ++ closing :: [] := by simp
    rw [hsplit, commandTokens_append hall hclosing, commandTokens_unfinished hnone]
    rfl
  · rw [List.append_assoc, List.cons_append, commandTokens_append hcommand hend,
      commandTokens_append hcommand hend, List.length_cons, List.length_cons,
      ih after.length (by rw [← hlength]; simp; omega) after rfl]

theorem acceptedCells_closed (cells : List Token) {word closing : Token}
    (hword : word.token.isNewline = false) :
    acceptedCells (closing :: word :: cells) =
      acceptedCells cells ++ [settle word, settle closing] := by
  have hstop : (settle word).token ≠ .endCmd := by
    rw [ne_eq, settle_eq_endCmd_iff, hword]
    simp
  simp only [acceptedCells, List.reverse_cons, List.map_append,
    List.append_assoc, List.singleton_append, List.dropWhile_append]
  split
  · rename_i hempty
    rw [List.isEmpty_iff.mp hempty, List.map_cons,
      List.dropWhile_cons_of_neg (by simpa using hstop)]
    rfl
  · rfl

/-- An accepted script has no empty command. -/
theorem fullCommands_acceptedCells {bytes : List UInt8} {s : Reader}
    (hread : readBytes bytes {} = .ok s) :
    fullCommands (acceptedCells s.cells) = commandTokens (acceptedCells s.cells) := by
  have hspread : Spread s.cells := Spread.readBytes (s := {}) trivial hread
  exact fullCommands_of_solid (solid_dropWhile false hspread.solid.1)

/-- The script and the script with a newline are not read as the same trees. -/
theorem not_readsAs_both {bytes : List UInt8} (h255 : 255 ∉ bytes)
    (hends : EndsInWord bytes) :
    ¬ ∃ trees, ReadsAs bytes trees ∧ ReadsAs (bytes ++ [10]) trees := by
  rintro ⟨trees, ⟨cells, haccepted, hyields⟩, ⟨cells', haccepted', hyields'⟩⟩
  obtain ⟨s, skipped, checked, hread, hcheck, rfl⟩ := makeCommandStream_eq_ok haccepted
  obtain ⟨s', skipped', checked', hread', -, rfl⟩ := makeCommandStream_eq_ok haccepted'
  obtain ⟨hword, hoff⟩ := hends.pending h255 hread
  obtain ⟨older, holder, hnewline⟩ := readByte_newline hword hoff
  have hwhole := hread'
  rw [readBytes_append h255, hread] at hread'
  have hlast : readBytes [10] s = readByte 10 s := by
    rw [readBytes, if_neg (by decide), hnewline]
    rfl
  obtain rfl := Except.ok.inj ((hlast.trans hnewline).symm.trans hread')
  obtain rfl : older = s.cells := by
    rcases holder with heq | ⟨hcell, habsorbs⟩
    · exact heq
    · exact absurd (checkCells_absorbing hcheck hcell) (by simp [habsorbs])
  have hlength := hyields.length_eq (List.nil_append _).symm cleared_nil
    (written_of_accepted haccepted)
  have hlength' := hyields'.length_eq (List.nil_append _).symm cleared_nil
    (written_of_accepted haccepted')
  rw [fullCommands_acceptedCells hread] at hlength
  rw [fullCommands_acceptedCells hwhole, acceptedCells_closed _ rfl,
    commandTokens_append_closed _ (by simp [settle]) (by simp [settle]), ← hlength]
    at hlength'
  omega

/-- `a`, without and with a newline -/
theorem not_readsAs_both_word :
    ¬ ∃ trees, ReadsAs [97] trees ∧ ReadsAs [97, 10] trees :=
  not_readsAs_both (by decide) ⟨[], 97, rfl, by decide, rfl⟩

/-- Of `a` and `b` on two lines only `a` is read. -/
theorem lostCommand_not_readsAs :
    ¬ ∀ bytes, InSubset (bytes ++ [10]) → 255 ∉ bytes → EndsInWord bytes →
      ∃ trees, ReadsAs bytes trees ∧ ReadsAs (bytes ++ [10]) trees := by
  intro hall
  have hsubset : InSubset ([97, 10, 98] ++ [10]) := by
    refine ⟨by decide, ?_, ?_⟩
    · rintro ⟨operator, hoperator, n, hinfix⟩
      have hmem := hinfix.subset (List.mem_cons_self ..)
      have hlexemes : lexemes false false ([97, 10, 98] ++ [10]) =
          [.word, .newline, .word, .newline] := by decide
      rw [hlexemes] at hmem
      simp only [List.mem_cons, List.not_mem_nil, or_false] at hoperator
      rcases hoperator with rfl | rfl <;> simp at hmem
    · have hword : Derives .andOr [.word] :=
        .andOrOne (.pipelineOne (.simpleCommand .word (.inl rfl)))
      exact .complete (.inl rfl) (.listMore hword (.inr (.inl rfl))
        (.listOne hword (.inl (.inr (.inl rfl)))))
  obtain ⟨trees, ⟨cells, haccepted, hyields⟩, ⟨cells', haccepted', hyields'⟩⟩ :=
    hall [97, 10, 98] hsubset (by decide) ⟨[97, 10], 98, rfl, by decide, rfl⟩
  have hone := hyields.length_eq (List.nil_append _).symm cleared_nil
    (written_of_accepted haccepted)
  have htwo := hyields'.length_eq (List.nil_append _).symm cleared_nil
    (written_of_accepted haccepted')
  obtain rfl := Except.ok.inj haccepted
  obtain rfl := Except.ok.inj haccepted'
  rw [hone] at htwo
  exact absurd htwo (by decide)

end Cs111Labs.Shell
