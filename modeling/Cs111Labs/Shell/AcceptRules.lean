import Cs111Labs.Shell.Grammar
import Cs111Labs.Shell.SubsetGrammar

/-!
# What the reader accepts

Only the tokens of the cells matter.  The cells that a script leaves in the
array are its symbols without the newlines that gave way to a word or to a
redirection, and the check asks for rules about neighbouring cells.
-/

namespace Cs111Labs.Shell

open Foundation Neighbour

/-! ## Tokens of the cells -/

def kinds (cells : List Token) : List TokenType := cells.map Token.token

/-- The token of the cell that a list of tokens starts with. -/
def kindAt (ts : List TokenType) : TokenType := ts.headD .null

@[simp] theorem kindAt_nil : kindAt [] = .null := rfl

@[simp] theorem kindAt_cons (t : TokenType) (ts : List TokenType) :
    kindAt (t :: ts) = t := by
  rw [kindAt, List.headD_cons]

@[simp] theorem tokenAt_eq (cells : List Token) :
    tokenAt cells = kindAt (kinds cells) := by
  cases cells <;> rfl

@[simp] theorem kinds_tail (cells : List Token) :
    kinds cells.tail = (kinds cells).tail := by
  cases cells <;> rfl

def addWordKind (ts : List TokenType) : List TokenType :=
  if (kindAt ts).isNewline && (kindAt ts.tail).absorbsNewline then .word :: ts.tail
  else .word :: ts

/-- `addToken` without contents and texts. -/
def addKind (tType : TokenType) (ts : List TokenType) : Option (List TokenType) :=
  match tType with
  | .halfEndCmd =>
      if kindAt ts = .halfEndCmd then some (.endCmd :: ts.tail)
      else if kindAt ts = .endCmd then some ts
      else some (.halfEndCmd :: ts)
  | .pipeline =>
      if kindAt ts = .pipeline then some (.or :: ts.tail)
      else if kindAt ts = .or then none
      else some (.pipeline :: ts)
  | .halfAnd =>
      if kindAt ts = .halfAnd then some (.and :: ts.tail)
      else if kindAt ts = .and then none
      else some (.halfAnd :: ts)
  | .semicolon | .lbkt | .rbkt => some (tType :: ts)
  | .input | .output =>
      if (kindAt ts).isNewline && kindAt ts.tail = .word then some (tType :: ts.tail)
      else some (tType :: ts)
  | _ => none

theorem kinds_addWord {word : CString} (hword : word ≠ []) (cells : List Token) :
    kinds (addWord word cells) = addWordKind (kinds cells) := by
  simp only [addWord, hword, if_false, tokenAt_eq, kinds_tail, addWordKind]
  split
  · simp [overwrite, kinds]
  · rfl

theorem kinds_addToken (tType : TokenType) (cells : List Token) :
    (addToken tType cells).toOption.map kinds = addKind tType (kinds cells) := by
  cases tType <;> simp only [addToken, addKind, tokenAt_eq, kinds_tail] <;>
    repeat' split
  all_goals simp_all [Except.toOption, overwrite, kinds]

def readLexeme : Lexeme → List TokenType → Option (List TokenType)
  | .blank, ts => some ts
  | .word, ts => some (addWordKind ts)
  | .semicolon, ts => addKind .semicolon ts
  | .bar, ts => addKind .pipeline ts
  | .ampersand, ts => addKind .halfAnd ts
  | .lparen, ts => addKind .lbkt ts
  | .rparen, ts => addKind .rbkt ts
  | .less, ts => addKind .input ts
  | .greater, ts => addKind .output ts
  | .newline, ts => addKind .halfEndCmd ts
  | .unsupported, _ => none

def readLexemes : List Lexeme → List TokenType → Option (List TokenType)
  | [], ts => some ts
  | l :: lexemes, ts => (readLexeme l ts).bind (readLexemes lexemes)

theorem readLexemes_append (first rest : List Lexeme) (ts : List TokenType) :
    readLexemes (first ++ rest) ts =
      (readLexemes first ts).bind (readLexemes rest) := by
  induction first generalizing ts with
  | nil => rfl
  | cons l first ih =>
      simp only [List.cons_append, readLexemes]
      cases readLexeme l ts with
      | none => rfl
      | some ts' => exact ih ts'

/-! ## From bytes to lexemes -/

/-- What a special byte adds, in terms of lexemes. -/
theorem readLexeme_lexeme (byte : UInt8) (cells : List Token) :
    readLexeme (lexeme byte) (kinds cells) =
      match specialToken byte with
      | none => some (kinds cells)
      | some tType => (addToken tType cells).toOption.map kinds := by
  unfold lexeme specialToken
  repeat' split
  all_goals simp_all [readLexeme, kinds_addToken]

theorem kinds_addWord_wordBuffer (s : Reader) :
    some (kinds (addWord s.wordBuffer s.cells)) =
      readLexemes (if s.wordBuffer ≠ [] then [.word] else []) (kinds s.cells) := by
  by_cases hword : s.wordBuffer = []
  · simp [hword, addWord, readLexemes]
  · simp [hword, kinds_addWord, readLexemes, readLexeme]

theorem readByte_kinds (byte : UInt8) (s : Reader) (bytes : List UInt8) :
    (readByte byte s).toOption.bind (fun s' =>
        readLexemes (lexemes s'.isComments (s'.wordBuffer ≠ []) bytes)
          (kinds s'.cells)) =
      readLexemes (lexemes s.isComments (s.wordBuffer ≠ []) (byte :: bytes))
        (kinds s.cells) := by
  simp only [readByte, lexemes]
  cases hcomment : ignoreComments byte s.isComments with
  | true => simp [Except.toOption]
  | false =>
      cases hvalid : isValidChar byte with
      | false => simp [Except.toOption, readLexemes, readLexeme]
      | true =>
          cases hcontent : isWordContent byte with
          | true => simp [Except.toOption]
          | false =>
              have hpending := kinds_addWord_wordBuffer s
              have hspecial := readLexeme_lexeme byte (addWord s.wordBuffer s.cells)
              simp only [Bool.not_true, Bool.false_eq_true, if_false, if_true,
                readLexemes_append, decide_eq_true_eq, ← hpending,
                Option.bind_some, readLexemes, hspecial]
              cases specialToken byte with
              | none => simp [Except.toOption]
              | some tType =>
                  dsimp only
                  cases addToken tType (addWord s.wordBuffer s.cells) with
                  | error text => rfl
                  | ok cells => simp [Except.map, Except.toOption]

/-- The bytes before the first byte 255. -/
def untilEnd (bytes : List UInt8) : List UInt8 := bytes.takeWhile (· ≠ 255)

theorem readBytes_kinds (bytes : List UInt8) (s : Reader) :
    (readBytes bytes s).toOption.map (fun s' => kinds s'.cells) =
      readLexemes (lexemes s.isComments (s.wordBuffer ≠ []) (untilEnd bytes))
        (kinds s.cells) := by
  induction bytes generalizing s with
  | nil => rfl
  | cons byte bytes ih =>
      by_cases hend : byte = 255
      · simp [readBytes, hend, untilEnd, lexemes, readLexemes, Except.toOption]
      · have huntil : untilEnd (byte :: bytes) = byte :: untilEnd bytes := by
          simp [untilEnd, hend]
        rw [huntil, ← readByte_kinds]
        simp only [readBytes, hend, if_false]
        cases hread : readByte byte s with
        | error text => rfl
        | ok s' => exact ih s'

/-! ## From lexemes to symbols -/

def readSymbol : Symbol → List TokenType → Option (List TokenType)
  | .word, ts => some (addWordKind ts)
  | .semicolon, ts => addKind .semicolon ts
  | .pipe, ts => addKind .pipeline ts
  | .orIf, ts => (addKind .pipeline ts).bind (addKind .pipeline)
  | .ampersand, ts => addKind .halfAnd ts
  | .andIf, ts => (addKind .halfAnd ts).bind (addKind .halfAnd)
  | .lparen, ts => addKind .lbkt ts
  | .rparen, ts => addKind .rbkt ts
  | .less, ts => addKind .input ts
  | .greater, ts => addKind .output ts
  | .newline, ts => addKind .halfEndCmd ts
  | .newlines, ts => (addKind .halfEndCmd ts).bind (addKind .halfEndCmd)
  | .unsupported, _ => none

def readSymbols : List Symbol → List TokenType → Option (List TokenType)
  | [], ts => some ts
  | z :: symbols, ts => (readSymbol z ts).bind (readSymbols symbols)

/-- A third `|` or `&` is an error, and a third newline changes nothing. -/
theorem addKind_thrice (ts : List TokenType) :
    ((addKind .pipeline ts).bind (addKind .pipeline)).bind (addKind .pipeline) =
        none ∧
      ((addKind .halfAnd ts).bind (addKind .halfAnd)).bind (addKind .halfAnd) =
        none ∧
      ((addKind .halfEndCmd ts).bind (addKind .halfEndCmd)).bind
          (addKind .halfEndCmd) =
        (addKind .halfEndCmd ts).bind (addKind .halfEndCmd) := by
  refine ⟨?_, ?_, ?_⟩ <;> simp only [addKind] <;> repeat' split
  all_goals simp_all [addKind]

theorem readSymbols_pushLexeme (l : Lexeme) (symbols : List Symbol)
    (ts : List TokenType) :
    readSymbols (pushLexeme l symbols) ts =
      (readLexeme l ts).bind (readSymbols symbols) := by
  obtain ⟨hpipe, hand, hline⟩ := addKind_thrice ts
  fun_cases pushLexeme l symbols
  all_goals simp [readSymbols, readSymbol, readLexeme, ← Option.bind_assoc, *]

theorem readLexemes_symbolsOf (lexemes : List Lexeme) (ts : List TokenType) :
    readLexemes lexemes ts = readSymbols (symbolsOf lexemes) ts := by
  induction lexemes generalizing ts with
  | nil => rfl
  | cons l lexemes ih =>
      have hpush : symbolsOf (l :: lexemes) = pushLexeme l (symbolsOf lexemes) := rfl
      rw [hpush, readSymbols_pushLexeme, readLexemes]
      simp only [ih]

theorem readSymbols_unsupported {symbols : List Symbol}
    (h : .unsupported ∈ symbols) (ts : List TokenType) :
    readSymbols symbols ts = none := by
  induction symbols generalizing ts with
  | nil => cases h
  | cons z symbols ih =>
      rcases List.mem_cons.1 h with rfl | hrest
      · rfl
      · simp only [readSymbols]
        cases readSymbol z ts with
        | none => rfl
        | some ts' => exact ih hrest ts'

/-! ## From symbols to cells -/

/-- The token of the cell that a symbol leaves. -/
def kindOf : Neighbour → TokenType
  | none | some .unsupported => .null
  | some .word => .word
  | some .semicolon => .semicolon
  | some .pipe => .pipeline
  | some .ampersand => .halfAnd
  | some .andIf => .and
  | some .orIf => .or
  | some .lparen => .lbkt
  | some .rparen => .rbkt
  | some .less => .input
  | some .greater => .output
  | some .newline => .halfEndCmd
  | some .newlines => .endCmd

/-- The cell of the newlines `y` is reused for `z`. -/
def GivesWay (x y z : Neighbour) : Bool :=
  isNewline y &&
    ((wantsOperand x && z = some .word) || (x = some .word && isRedirection z))

/-- The cells that symbols leave, newest first. -/
def cellsOf : List Neighbour → List TokenType
  | z :: y :: x :: older =>
      if GivesWay x y z then kindOf z :: cellsOf (x :: older)
      else kindOf z :: cellsOf (y :: x :: older)
  | [z, y] => [kindOf z, kindOf y]
  | [z] => [kindOf z]
  | [] => []

theorem cellsOf_keeps {x y z : Neighbour} (h : GivesWay x y z = false)
    (older : List Neighbour) :
    cellsOf (z :: y :: x :: older) = kindOf z :: cellsOf (y :: x :: older) := by
  simp [cellsOf, h]

theorem cellsOf_drops {x y z : Neighbour} (h : GivesWay x y z = true)
    (older : List Neighbour) :
    cellsOf (z :: y :: x :: older) = kindOf z :: cellsOf (x :: older) := by
  simp [cellsOf, h]

@[simp] theorem kindAt_cellsOf (z : Neighbour) (older : List Neighbour) :
    kindAt (cellsOf (z :: older)) = kindOf z := by
  match older with
  | [] | [_] => rfl
  | y :: x :: older =>
      simp only [cellsOf]
      split <;> rfl

theorem givesWay_isNewline : ∀ x y z : Neighbour, GivesWay x y z = true →
    isNewline y = true ∧ isNewline x = false ∧ isNewline z = false := by
  decide

/-- The cell below a newline is that of the symbol before it. -/
theorem cellsOf_newline {y : Neighbour} (hy : isNewline y = true) (x : Neighbour)
    (older : List Neighbour) :
    cellsOf (y :: x :: older) = kindOf y :: cellsOf (x :: older) := by
  cases older with
  | nil => rfl
  | cons w older =>
      refine cellsOf_keeps ?_ older
      by_contra hdrops
      have hnot := (givesWay_isNewline w x y (Bool.of_not_eq_false hdrops)).2.2
      simp [hy] at hnot

@[simp] theorem kindOf_word : kindOf (some .word) = .word := rfl

@[simp] theorem kindOf_less : kindOf (some .less) = .input := rfl

@[simp] theorem kindOf_greater : kindOf (some .greater) = .output := rfl

@[simp] theorem kindOf_isNewline : ∀ y : Neighbour,
    (kindOf y).isNewline = isNewline y := by
  decide

@[simp] theorem kindOf_absorbsNewline : ∀ x : Neighbour,
    (kindOf x).absorbsNewline = wantsOperand x := by
  decide

@[simp] theorem kindOf_eq_word : ∀ x : Neighbour,
    kindOf x = .word ↔ x = some .word := by
  decide

/-- Every symbol but words and redirections only adds its cell. -/
theorem readSymbol_keeps {y : Neighbour} {z : Symbol} {ts : List TokenType}
    (hhead : kindAt ts = kindOf y) (hmerged : Merges y (some z) = false)
    (hz : z ≠ .unsupported) (hword : z ≠ .word) (hredirection : z.isRedirection = false) :
    readSymbol z ts = some (kindOf (some z) :: ts) := by
  cases z with
  | word | less | greater | unsupported => simp_all [Symbol.isRedirection]
  | semicolon | lparen | rparen => rfl
  | newline | newlines | pipe | orIf | ampersand | andIf =>
      cases y with
      | none => simp [readSymbol, addKind, hhead, kindOf]
      | some s =>
          cases s <;> simp [Merges, isNewline, Symbol.isNewline] at hmerged <;>
            simp [readSymbol, addKind, hhead, kindOf]

theorem readSymbol_cellsOf {x y : Neighbour} {z : Symbol} {older : List Neighbour}
    (hmerged : Merges y (some z) = false) (hz : z ≠ .unsupported) :
    readSymbol z (cellsOf (y :: x :: older)) =
      some (cellsOf (some z :: y :: x :: older)) := by
  have hhead := kindAt_cellsOf y (x :: older)
  have hbelow : isNewline y = true →
      cellsOf (y :: x :: older) = kindOf y :: cellsOf (x :: older) :=
    fun hy => cellsOf_newline hy x older
  cases z with
  | word =>
      cases hy : isNewline y with
      | false => simp [readSymbol, addWordKind, cellsOf, GivesWay, hy]
      | true =>
          simp only [readSymbol, addWordKind, cellsOf, GivesWay, hbelow hy, hy]
          simp [hy, apply_ite some, isRedirection, Symbol.isRedirection]
  | less | greater =>
      cases hy : isNewline y with
      | false => simp [readSymbol, addKind, cellsOf, GivesWay, hy]
      | true =>
          simp only [readSymbol, addKind, cellsOf, GivesWay, hbelow hy, hy]
          simp [hy, apply_ite some, isRedirection, Symbol.isRedirection]
  | unsupported => cases hz rfl
  | semicolon | lparen | rparen | newline | newlines | pipe | orIf | ampersand
    | andIf =>
      have hkeeps := readSymbol_keeps hhead hmerged hz (by simp) rfl
      rw [hkeeps, cellsOf_keeps]
      simp [GivesWay, isRedirection, Symbol.isRedirection]

/-- The cells before the first one, which read as `NULL_TOKEN`. -/
def border : List TokenType := [.null, .null]

@[simp] theorem kindAt_border (ts : List TokenType) :
    kindAt (ts ++ border) = kindAt ts := by
  cases ts <;> rfl

theorem addWordKind_border (ts : List TokenType) :
    addWordKind (ts ++ border) = addWordKind ts ++ border := by
  cases ts with
  | nil => rfl
  | cons t ts => simp [addWordKind, apply_ite (· ++ border)]

theorem addKind_border (tType : TokenType) (ts : List TokenType) :
    addKind tType (ts ++ border) = (addKind tType ts).map (· ++ border) := by
  cases ts with
  | nil => cases tType <;> rfl
  | cons t ts =>
      cases tType with
      | pipeline | halfAnd | halfEndCmd | input | output =>
          simp only [addKind, List.cons_append, kindAt_cons, List.tail_cons,
            kindAt_border]
          split_ifs <;> simp_all
      | null | word | and | or | lbkt | rbkt | semicolon | endCmd => rfl

theorem readSymbol_border (z : Symbol) (ts : List TokenType) :
    readSymbol z (ts ++ border) = (readSymbol z ts).map (· ++ border) := by
  cases z <;> simp only [readSymbol, addKind_border, addWordKind_border, Option.map_some,
    Option.map_none, Option.bind_map, Function.comp_def, Option.map_bind]

theorem readSymbols_border (symbols : List Symbol) (ts : List TokenType) :
    readSymbols symbols (ts ++ border) =
      (readSymbols symbols ts).map (· ++ border) := by
  induction symbols generalizing ts with
  | nil => rfl
  | cons z symbols ih =>
      simp only [readSymbols, readSymbol_border, Option.bind_map, Function.comp_def, ih,
        Option.map_bind]

theorem readSymbols_cellsOf {x y : Neighbour} {older : List Neighbour}
    {symbols : List Symbol} (hmerged : Merged y symbols)
    (hsupported : .unsupported ∉ symbols) :
    readSymbols symbols (cellsOf (y :: x :: older)) =
      some (cellsOf ((symbols.map some).reverse ++ y :: x :: older)) := by
  induction symbols generalizing x y older with
  | nil => rfl
  | cons z symbols ih =>
      obtain ⟨hnot, hmerged⟩ := hmerged
      have hz : z ≠ .unsupported := fun heq => hsupported (by simp [heq])
      have hrest : .unsupported ∉ symbols := fun hmem => hsupported (by simp [hmem])
      rw [readSymbols, readSymbol_cellsOf hnot hz, Option.bind_some,
        ih hmerged hrest]
      simp

/-- The array that the first loop leaves, newest cell first. -/
theorem readBytes_cells (bytes : List UInt8) :
    (readBytes bytes {}).toOption.map (fun s => kinds s.cells ++ border) =
      if .unsupported ∈ symbols (untilEnd bytes) then none
      else some (cellsOf (((symbols (untilEnd bytes)).map some).reverse ++ [none, none])) := by
  have hread := readBytes_kinds bytes {}
  have hsymbols : (readBytes bytes {}).toOption.map (fun s => kinds s.cells) =
      readSymbols (symbols (untilEnd bytes)) [] := by
    rw [hread, readLexemes_symbolsOf]
    rfl
  have hborder := readSymbols_border (symbols (untilEnd bytes)) []
  rw [← hsymbols, Option.map_map] at hborder
  rw [Function.comp_def] at hborder
  rw [← hborder]
  split_ifs with hmem
  · exact readSymbols_unsupported hmem _
  · have hcells : border = cellsOf [none, none] := rfl
    rw [List.nil_append, hcells]
    exact readSymbols_cellsOf (merged_symbolsOf _) hmem

end Cs111Labs.Shell
