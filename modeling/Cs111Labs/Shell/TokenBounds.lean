import Cs111Labs.Shell.Accepts
import Cs111Labs.Shell.FinalNewline

/-!
# Accesses to the token array

The reader once more, with every cell of the token array that it looks at.  A
look before the first cell, or behind the cell just after the last token, ends
the run.
-/

namespace Cs111Labs.Shell

open Foundation Neighbour

inductive Abort where
  | outOfBounds
  | error (text : String)
  /-- Something that was not set is followed or copied. -/
  | unset
  deriving DecidableEq, Repr

namespace Checked

/-- `before` holds the cells to the left, the nearest one first. -/
def cellBefore (before : List Token) (distance : Nat) : Except Abort Token :=
  match before[distance]? with
  | some cell => .ok cell
  | none => .error .outOfBounds

/-- The cell just after the last token reads as `NULL_TOKEN`. -/
def cellFrom (after : List Token) (distance : Nat) : Except Abort Token :=
  match after[distance]? with
  | some cell => .ok cell
  | none =>
      if distance = after.length then .ok ⟨.null, none⟩ else .error .outOfBounds

/-! ## `add_token` -/

/-- The last cell is a newline, and `p` holds of the one before it. -/
def newlineAfter (p : TokenType → Bool) (cells : List Token) :
    Except Abort Bool := do
  let last ← cellBefore cells 0
  if last.token.isNewline then
    let older ← cellBefore cells 1
    return p older.token
  else return false

def addWord (word : CString) (cells : List Token) :
    Except Abort (List Token) :=
  if word = [] then .ok cells
  else do
    let absorbed ← newlineAfter TokenType.absorbsNewline cells
    if absorbed then return overwrite ⟨.word, some word⟩ cells
    else return ⟨.word, some word⟩ :: cells

def addToken (tType : TokenType) (cells : List Token) :
    Except Abort (List Token) :=
  match tType with
  | .halfEndCmd => do
      let last ← cellBefore cells 0
      if last.token = .halfEndCmd then return overwrite ⟨.endCmd, none⟩ cells
      else if last.token = .endCmd then return cells
      else return ⟨.halfEndCmd, none⟩ :: cells
  | .pipeline => do
      let last ← cellBefore cells 0
      if last.token = .pipeline then return overwrite ⟨.or, none⟩ cells
      else if last.token = .or then throw (.error "Undefined usage of '|'")
      else return ⟨.pipeline, none⟩ :: cells
  | .halfAnd => do
      let last ← cellBefore cells 0
      if last.token = .halfAnd then return overwrite ⟨.and, none⟩ cells
      else if last.token = .and then throw (.error "Undefined usage of '&'")
      else return ⟨.halfAnd, none⟩ :: cells
  | .semicolon | .lbkt | .rbkt => .ok (⟨tType, none⟩ :: cells)
  | .input | .output => do
      let absorbed ← newlineAfter (· = .word) cells
      if absorbed then return overwrite ⟨tType, none⟩ cells
      else return ⟨tType, none⟩ :: cells
  | _ => .error (.error "Token undefined!")

def readByte (nextByte : UInt8) (s : Reader) : Except Abort Reader :=
  let s := { s with isComments := ignoreComments nextByte s.isComments }
  if s.isComments then .ok s
  else if isValidChar nextByte then
    if isWordContent nextByte then
      .ok { s with wordBuffer := s.wordBuffer ++ [nextByte] }
    else do
      let cells ← addWord s.wordBuffer s.cells
      match specialToken nextByte with
      | none => return { s with wordBuffer := [], cells := cells }
      | some tType =>
          let cells ← addToken tType cells
          return { s with wordBuffer := [], cells := cells }
  else .error (.error "unsupported character!")

def readBytes : List UInt8 → Reader → Except Abort Reader
  | [], s => .ok s
  | nextByte :: bytes, s =>
      if nextByte = 255 then .ok s
      else readByte nextByte s >>= readBytes bytes

/-! ## The grammar check -/

/-- One side of an operator; only a half newline is looked behind. -/
def checkSide (p : TokenType → Bool) (look : Nat → Except Abort Token) :
    Except Abort Bool := do
  let near ← look 0
  if p near.token then return true
  else if near.token = .halfEndCmd then
    let far ← look 1
    return p far.token
  else return false

def checkTwosides (before after : List Token) (atStart : Bool) :
    Except Abort Bool := do
  let leftSide ← checkSide TokenType.endsCommand (cellBefore before)
  let rightSide ← checkSide TokenType.startsCommand (cellFrom after)
  let next ← cellFrom after 0
  if next.token = .endCmd || atStart then return true
  else return !(leftSide && rightSide)

def checkOperator (name : String) (before after : List Token) (atStart : Bool) :
    Except Abort Unit := do
  let incomplete ← checkTwosides before after atStart
  if incomplete then throw (.error ("incomplete command of '" ++ name ++ "'!"))
  else
    let previous ← cellBefore before 0
    if !previous.token.endsCommand then
      throw (.error ("undefined syntax of '" ++ name ++ "'!"))
    else return ()

def checkToken (cell : Token) (before after : List Token) (atStart : Bool) :
    Except Abort Unit :=
  match cell.token with
  | .and => checkOperator "&&" before after atStart
  | .or => checkOperator "||" before after atStart
  | .pipeline => checkOperator "|" before after atStart
  | .input => do
      let incomplete ← checkTwosides before after atStart
      if incomplete then throw (.error "incomplete command of '>'!")
      else return ()
  | .output => do
      let incomplete ← checkTwosides before after atStart
      if incomplete then throw (.error "incomplete command of '<'!")
      else return ()
  | .halfAnd => .error (.error "undefined syntax of '&'!")
  | .semicolon => do
      let previous ← cellBefore before 0
      if !previous.token.endsCommand then
        throw (.error "undefined syntax of ';'!")
      else return ()
  | _ => .ok ()

def checkCells (skipped : Nat) (before : List Token) :
    List Token → Except Abort (List Token)
  | [] => .ok before.reverse
  | cell :: after =>
      checkToken cell before after (before.length < skipped + 1) >>= fun _ =>
        checkCells skipped (settle cell :: before) after

/-- The loop that moves `command_s` behind the newlines at the start. -/
def skipNewlines : List Token → Except Abort Nat
  | [] => (cellFrom [] 0).map fun _ => 0
  | cell :: after =>
      if cell.token.isNewline then (skipNewlines after).map (· + 1) else .ok 0

/-- The cells before `command_s`, newest first, and those from it on. -/
def makeCommandStream (bytes : List UInt8) :
    Except Abort (List Token × List Token) := do
  let s ← readBytes bytes {}
  let skipped ← skipNewlines s.cells.reverse
  let _ ← cellBefore s.cells 0
  let checked ← checkCells skipped [] (settleLast s.cells).reverse
  if countToken .lbkt checked > countToken .rbkt checked then
    throw (.error "missing ')'")
  else if countToken .lbkt checked < countToken .rbkt checked then
    throw (.error "missing '('")
  else return ((checked.take skipped).reverse, checked.drop skipped)

/-! ## The first command -/

/-- The cells before the first one that is set, newest first, and the others. -/
def findStreamStart (before : List Token) :
    List Token → Except Abort (List Token × List Token)
  | [] => .error .outOfBounds
  | cell :: cells =>
      if cell.token = .null then findStreamStart (cell :: before) cells
      else .ok (before, cell :: cells)

/-- The cells up to the next `ENDCMD_TOKEN`, and those behind it. -/
def findStreamEnd : List Token → Except Abort (List Token × List Token)
  | [] => .error .outOfBounds
  | cell :: cells =>
      if cell.token = .endCmd then .ok ([cell], cells)
      else (findStreamEnd cells).map fun (command, after) =>
        (cell :: command, after)

def ofBuilder {α : Type} : Option α → Except Abort α
  | none => .error .unset
  | some b => .ok b

def buildTokens (before : List Token) : List Token → Builder → Except Abort Builder
  | [], b => .ok b
  | cell :: cells, b =>
      if cell.token.isRedirection then do
        let previous ← cellBefore before 0
        let operand ← cellFrom cells 0
        let content ← ofBuilder operand.content
        let b ← ofBuilder (buildRedirection previous.token cell.token content b)
        match cells with
        | [] => return b
        | operand :: cells => buildTokens (operand :: cell :: before) cells b
      else do
        let b ← ofBuilder (buildToken cell b)
        buildTokens (cell :: before) cells b

/-- The first call; the cells from `command_s` on after it. -/
def readCommandStream (before s : List Token) :
    Except Abort (Option Parsed × List Token) := do
  let (start, rest) ← findStreamStart before s
  let (command, after) ← findStreamEnd rest
  if command.length = 1 then return (none, s)
  else
    let b ← buildTokens start command startBuilder
    let _ ← cellFrom after 0
    return (some ⟨b.heap, b.commandRoot⟩,
      s.takeWhile (·.token = .null) ++ command.map clear ++ endNext after)

/-- `make_command_stream` and the first call of `read_command_stream` -/
def run (bytes : List UInt8) : Except Abort (Option Parsed × List Token) := do
  let (before, s) ← makeCommandStream bytes
  readCommandStream before s

/-! ## Behind a first cell that stays -/

variable {cells : List Token} {token : TokenType}

@[simp] theorem cellBefore_zero (cell : Token) (older : List Token) :
    cellBefore (cell :: older) 0 = .ok cell := rfl

@[simp] theorem cellBefore_one (last cell : Token) (older : List Token) :
    cellBefore (last :: cell :: older) 1 = .ok cell := rfl

/-- The tokens that are neither looked behind nor written over. -/
def stays (token : TokenType) : Bool :=
  token = .semicolon || token = .lbkt || token = .rbkt

/-- The first cell of the array is one that stays. -/
structure Anchored (token : TokenType) (cells : List Token) : Prop where
  fixed : stays token = true
  first : [⟨token, none⟩] <:+ cells

theorem Anchored.cons (h : Anchored token cells) (cell : Token) :
    Anchored token (cell :: cells) where
  fixed := h.fixed
  first := h.first.trans (List.suffix_cons cell cells)

/-- A cell that does not stay is not the only one. -/
theorem Anchored.tail (h : Anchored token cells) (hlast : stays (tokenAt cells) = false) :
    Anchored token cells.tail := by
  refine ⟨h.fixed, ?_⟩
  cases cells with
  | nil => exact absurd h.first (by simp)
  | cons last older =>
      rcases List.suffix_cons_iff.mp h.first with heq | hfirst
      · obtain ⟨rfl, -⟩ := List.cons.inj heq
        exact absurd h.fixed (by simpa [tokenAt] using hlast)
      · exact hfirst

theorem Anchored.cellBefore (h : Anchored token cells) :
    ∃ last, cellBefore cells 0 = .ok last ∧ last.token = tokenAt cells := by
  cases cells with
  | nil => exact absurd h.first (by simp)
  | cons last older => exact ⟨last, rfl, rfl⟩

theorem stays_of_isNewline (hline : token.isNewline = true) : stays token = false := by
  cases token <;> first | rfl | cases hline

theorem Anchored.newlineAfter (h : Anchored token cells) (p : TokenType → Bool) :
    newlineAfter p cells =
      .ok ((tokenAt cells).isNewline && p (tokenAt cells.tail)) := by
  obtain ⟨last, hlast, htoken⟩ := h.cellBefore
  simp only [Checked.newlineAfter, hlast, htoken, bind, Except.bind]
  cases hline : (tokenAt cells).isNewline with
  | false => rfl
  | true =>
      obtain ⟨older, holder, htoken'⟩ :=
        (h.tail (stays_of_isNewline hline)).cellBefore
      have hbelow : Checked.cellBefore cells 1 = .ok older := by
        cases cells with
        | nil => cases hlast
        | cons last cells => exact holder
      simp [hbelow, htoken', pure, Except.pure]

theorem Anchored.addWord_eq (h : Anchored token cells) (word : CString) :
    addWord word cells = .ok (Shell.addWord word cells) := by
  simp only [addWord, Shell.addWord, h.newlineAfter, bind, Except.bind, pure, Except.pure]
  split_ifs <;> rfl

theorem Anchored.addToken_eq (h : Anchored token cells) (tType : TokenType) :
    addToken tType cells = (Shell.addToken tType cells).mapError .error := by
  obtain ⟨last, hlast, htoken⟩ := h.cellBefore
  cases tType <;>
    simp only [addToken, Shell.addToken, h.newlineAfter, hlast, htoken, bind,
      Except.bind, pure, Except.pure, throw, throwThe, MonadExceptOf.throw] <;>
    repeat' split
  all_goals rfl

theorem Anchored.addWord (h : Anchored token cells) (word : CString) :
    Anchored token (Shell.addWord word cells) := by
  unfold Shell.addWord
  split
  · exact h
  · split
    · rename_i habsorbed
      have hline : (tokenAt cells).isNewline = true :=
        (Bool.and_eq_true_iff.mp habsorbed).1
      exact (h.tail (stays_of_isNewline hline)).cons _
    · exact h.cons _

/-- Only newlines, `|` and `&` are written over. -/
theorem addToken_overwrites {tType : TokenType} {cells' : List Token}
    (heq : Shell.addToken tType cells = .ok cells') :
    cells' = cells ∨ ∃ cell, cells' = cell :: cells ∨
      (cells' = overwrite cell cells ∧ stays (tokenAt cells) = false) := by
  cases tType with
  | halfEndCmd | pipeline | halfAnd =>
      simp only [Shell.addToken] at heq
      split at heq
      · rename_i hlast
        exact .inr ⟨_, .inr ⟨(Except.ok.inj heq).symm, by rw [hlast]; rfl⟩⟩
      · split at heq
        · first | exact .inl (Except.ok.inj heq).symm | cases heq
        · exact .inr ⟨_, .inl (Except.ok.inj heq).symm⟩
  | input | output =>
      simp only [Shell.addToken] at heq
      split at heq
      · rename_i habsorbed
        have hline : (tokenAt cells).isNewline = true :=
          (Bool.and_eq_true_iff.mp habsorbed).1
        exact .inr ⟨_, .inr ⟨(Except.ok.inj heq).symm, stays_of_isNewline hline⟩⟩
      · exact .inr ⟨_, .inl (Except.ok.inj heq).symm⟩
  | semicolon | lbkt | rbkt => exact .inr ⟨_, .inl (Except.ok.inj heq).symm⟩
  | null | word | and | or | endCmd => cases heq

theorem Anchored.addToken (h : Anchored token cells) {tType : TokenType}
    {cells' : List Token} (heq : Shell.addToken tType cells = .ok cells') :
    Anchored token cells' := by
  rcases addToken_overwrites heq with rfl | ⟨cell, rfl | ⟨rfl, hlast⟩⟩
  · exact h
  · exact h.cons cell
  · exact (h.tail hlast).cons cell

theorem Anchored.readByte_eq {s : Reader} (h : Anchored token s.cells) (byte : UInt8) :
    readByte byte s = (Shell.readByte byte s).mapError .error := by
  simp only [readByte, Shell.readByte, h.addWord_eq, bind, Except.bind, pure, Except.pure]
  split
  · rfl
  · split
    · split
      · rfl
      · cases specialToken byte with
        | none => rfl
        | some tType =>
            dsimp only
            rw [(h.addWord s.wordBuffer).addToken_eq]
            cases Shell.addToken tType (Shell.addWord s.wordBuffer s.cells) <;> rfl
    · rfl

theorem Anchored.readBytes_eq (bytes : List UInt8) {s : Reader}
    (h : Anchored token s.cells) :
    readBytes bytes s = (Shell.readBytes bytes s).mapError .error := by
  induction bytes generalizing s with
  | nil => rfl
  | cons byte bytes ih =>
      simp only [readBytes, Shell.readBytes]
      split
      · rfl
      · rw [h.readByte_eq]
        cases hread : Shell.readByte byte s with
        | error text => rfl
        | ok s' =>
            have hnext : Anchored token s'.cells :=
              readByte_keeps (fun word _ h => h.addWord word)
                (fun _ _ _ h => h.addToken) h hread
            exact ih hnext

/-! ## From an empty array -/

/-- The first lexeme that is no blank. -/
def firstLexeme (isComments inWord : Bool) (bytes : List UInt8) : Option Lexeme :=
  (lexemes isComments inWord bytes).find? (· ≠ .blank)

/-- No look was outside, and the first cell is one that stays. -/
def StartsWith (token : TokenType) (result : Except Abort Reader)
    (expected : Except String Reader) : Prop :=
  result = expected.mapError .error ∧
    ∀ s, expected = .ok s → Anchored token s.cells

/-- What the first loop does by the first lexeme. -/
def Begins (result : Except Abort Reader) (expected : Except String Reader) :
    Option Lexeme → Prop
  | none => ∃ s, result = .ok s ∧ s.cells = []
  | some .unsupported => ∃ text, result = .error (.error text)
  | some .semicolon => StartsWith .semicolon result expected
  | some .lparen => StartsWith .lbkt result expected
  | some .rparen => StartsWith .rbkt result expected
  | some _ => result = .error .outOfBounds

theorem Anchored.startsWith {s : Reader} (h : Anchored token s.cells)
    (bytes : List UInt8) :
    StartsWith token (readBytes bytes s) (Shell.readBytes bytes s) :=
  ⟨h.readBytes_eq bytes, fun _ heq =>
    readBytes_keeps (fun word _ h => h.addWord word) (fun _ _ _ h => h.addToken) h heq⟩

theorem anchored_singleton (hstays : stays token = true) :
    Anchored token [⟨token, none⟩] where
  fixed := hstays
  first := List.suffix_rfl

theorem addWord_empty {word : CString} (hword : word ≠ []) :
    addWord word [] = .error .outOfBounds := by
  rw [addWord, if_neg hword]
  rfl

def lexemeToken : Lexeme → Option TokenType
  | .semicolon => some .semicolon
  | .newline => some .halfEndCmd
  | .bar => some .pipeline
  | .ampersand => some .halfAnd
  | .lparen => some .lbkt
  | .rparen => some .rbkt
  | .less => some .input
  | .greater => some .output
  | .word | .blank | .unsupported => none

theorem specialToken_eq (byte : UInt8) :
    specialToken byte = lexemeToken (lexeme byte) ∧
      lexeme byte ≠ .word ∧ lexeme byte ≠ .unsupported := by
  unfold specialToken lexeme
  repeat' split
  all_goals exact ⟨rfl, nofun, nofun⟩

/-- What a special byte does to an empty array. -/
def firstToken {ε : Type} (add : TokenType → List Token → Except ε (List Token))
    (l : Lexeme) : Except ε Reader :=
  match lexemeToken l with
  | none => .ok {}
  | some tType => (add tType []).map fun cells => { cells := cells }

/-- A token that stays is written; the others look at the cell before the first. -/
theorem begins_token {l : Lexeme} (hword : l ≠ .word) (hsupported : l ≠ .unsupported)
    (bytes : List UInt8) {later : Option Lexeme}
    (hrest : Begins (readBytes bytes {}) (Shell.readBytes bytes {}) later) :
    Begins (firstToken addToken l >>= readBytes bytes)
      (firstToken Shell.addToken l >>= Shell.readBytes bytes)
      (if l = .blank then later else some l) := by
  cases l with
  | word => cases hword rfl
  | unsupported => cases hsupported rfl
  | blank => exact hrest
  | semicolon | lparen | rparen => exact (anchored_singleton rfl).startsWith bytes
  | newline | bar | ampersand | less | greater => rfl

theorem readByte_blank {byte : UInt8} {s : Reader} (hcells : s.cells = [])
    (hword : s.wordBuffer = []) (hcomment : ignoreComments byte s.isComments = false)
    (hvalid : isValidChar byte = true) (hcontent : isWordContent byte = false) :
    readByte byte s = firstToken addToken (lexeme byte) ∧
      Shell.readByte byte s = firstToken Shell.addToken (lexeme byte) := by
  simp only [readByte, Shell.readByte, hcomment, hvalid, hcontent, hcells, hword,
    (specialToken_eq byte).1, firstToken, addWord, Shell.addWord]
  cases lexemeToken (lexeme byte) with
  | none => exact ⟨rfl, rfl⟩
  | some tType => exact ⟨rfl, rfl⟩

theorem find?_blank (l : Lexeme) (lexemes : List Lexeme) :
    (l :: lexemes).find? (fun l => !decide (l = .blank)) =
      if l = .blank then lexemes.find? (fun l => !decide (l = .blank)) else some l := by
  by_cases hblank : l = .blank
  · simp [hblank]
  · simp [hblank]

theorem ok_bind {ε α β : Type} (a : α) (f : α → Except ε β) :
    (Except.ok a >>= f) = f a := rfl

theorem readBytes_begins (bytes : List UInt8) {s : Reader} (hcells : s.cells = []) :
    Begins (readBytes bytes s) (Shell.readBytes bytes s)
      (firstLexeme s.isComments (s.wordBuffer ≠ []) (untilEnd bytes)) := by
  induction bytes generalizing s with
  | nil => exact ⟨s, rfl, hcells⟩
  | cons byte bytes ih =>
      by_cases hend : byte = 255
      · have huntil : untilEnd (byte :: bytes) = [] := by simp [untilEnd, hend]
        rw [huntil, readBytes, if_pos hend]
        exact ⟨s, rfl, hcells⟩
      have huntil : untilEnd (byte :: bytes) = byte :: untilEnd bytes := by
        simp [untilEnd, hend]
      rw [huntil, readBytes, Shell.readBytes, if_neg hend, if_neg hend, firstLexeme,
        lexemes]
      cases hcomment : ignoreComments byte s.isComments with
      | true =>
          have hnext := @ih { s with isComments := true } hcells
          simpa [readByte, Shell.readByte, hcomment, firstLexeme, ok_bind] using hnext
      | false =>
          cases hvalid : isValidChar byte with
          | false =>
              refine ⟨"unsupported character!", ?_⟩
              simp [readByte, hcomment, hvalid, bind, Except.bind]
          | true =>
              cases hcontent : isWordContent byte with
              | true =>
                  have hnext := @ih { s with
                    isComments := false
                    wordBuffer := s.wordBuffer ++ [byte] } hcells
                  simpa [readByte, Shell.readByte, hcomment, hvalid, hcontent,
                    firstLexeme, ok_bind] using hnext
              | false =>
                  by_cases hword : s.wordBuffer = []
                  · obtain ⟨hread, hplain⟩ :=
                      readByte_blank hcells hword hcomment hvalid hcontent
                    obtain ⟨-, hnot, hsupported⟩ := specialToken_eq byte
                    have hbegins := begins_token hnot hsupported bytes (@ih {} rfl)
                    rw [hread, hplain]
                    simpa [hword, find?_blank, firstLexeme] using hbegins
                  · have hword' : readByte byte s = .error .outOfBounds := by
                      simp [readByte, hcomment, hvalid, hcontent, hcells,
                        addWord_empty hword, bind, Except.bind]
                    rw [hword']
                    simp [hword, Begins, bind, Except.bind]

/-! ## The grammar check behind the first cell -/

variable {before : List Token} {skipped : Nat}

theorem cellFrom_zero (after : List Token) :
    ∃ cell, cellFrom after 0 = .ok cell ∧ cell.token = tokenAt after := by
  cases after with
  | nil => exact ⟨⟨.null, none⟩, rfl, rfl⟩
  | cons cell after => exact ⟨cell, rfl, rfl⟩

theorem cellFrom_one (cell : Token) (after : List Token) :
    cellFrom (cell :: after) 1 = cellFrom after 0 := by
  cases after <;> rfl

theorem checkSide_after (p : TokenType → Bool) (after : List Token) :
    checkSide p (cellFrom after) =
      .ok (p (tokenAt after) ||
        (tokenAt after = .halfEndCmd && p (tokenAt after.tail))) := by
  obtain ⟨near, hnear, htoken⟩ := cellFrom_zero after
  simp only [checkSide, hnear, htoken, bind, Except.bind]
  cases hp : p (tokenAt after) with
  | true => rfl
  | false =>
      by_cases hline : tokenAt after = .halfEndCmd
      · cases after with
        | nil => cases hline
        | cons cell after =>
            obtain ⟨far, hfar, htoken'⟩ := cellFrom_zero after
            rw [if_neg (by decide), if_pos hline, cellFrom_one, hfar,
              decide_eq_true hline, List.tail_cons, ← htoken']
            rfl
      · rw [if_neg (by decide), if_neg hline, decide_eq_false hline]
        rfl

/-- There are cells on the left, and the nearest one is no half newline. -/
structure Settled (before : List Token) : Prop where
  ne_nil : before ≠ []
  settled : tokenAt before ≠ .halfEndCmd

theorem settled_cons (cell : Token) (before : List Token) :
    Settled (settle cell :: before) where
  ne_nil := List.cons_ne_nil _ _
  settled := settle_ne_halfEndCmd cell

theorem Settled.cellBefore (h : Settled before) :
    ∃ cell, cellBefore before 0 = .ok cell ∧ cell.token = tokenAt before := by
  cases before with
  | nil => cases h.ne_nil rfl
  | cons cell before => exact ⟨cell, rfl, rfl⟩

theorem Settled.checkTwosides_eq (h : Settled before) (after : List Token) (atStart : Bool) :
    checkTwosides before after atStart =
      .ok (Shell.checkTwosides before after atStart) := by
  obtain ⟨near, hnear, htoken⟩ := h.cellBefore
  obtain ⟨next, hnext, htoken'⟩ := cellFrom_zero after
  have hleft : checkSide TokenType.endsCommand (Checked.cellBefore before) =
      .ok (tokenAt before).endsCommand := by
    simp only [checkSide, hnear, htoken, h.settled, bind, Except.bind, if_false]
    cases (tokenAt before).endsCommand <;> rfl
  simp only [checkTwosides, Shell.checkTwosides, hleft, checkSide_after, hnext, htoken',
    h.settled, bind, Except.bind, pure, Except.pure, decide_false, Bool.false_and,
    Bool.or_false]
  split_ifs <;> rfl

theorem Settled.checkToken_eq (h : Settled before) (cell : Token) (after : List Token)
    (atStart : Bool) :
    checkToken cell before after atStart =
      (Shell.checkToken cell before after atStart).mapError .error := by
  obtain ⟨near, hnear, htoken⟩ := h.cellBefore
  cases hcell : cell.token <;>
    simp only [checkToken, Shell.checkToken, hcell, checkOperator, Shell.checkOperator,
      h.checkTwosides_eq, hnear, htoken, bind, Except.bind] <;>
    first | rfl | split_ifs <;> rfl

theorem Settled.checkCells_eq (h : Settled before) (cells : List Token) :
    checkCells skipped before cells =
      (Shell.checkCells skipped before cells).mapError .error := by
  induction cells generalizing before with
  | nil => rfl
  | cons cell after ih =>
      rw [checkCells, Shell.checkCells, h.checkToken_eq]
      cases Shell.checkToken cell before after (before.length < skipped + 1) with
      | error text => rfl
      | ok _ => exact ih (settled_cons cell before)

/-! ## `make_command_stream` -/

theorem skipNewlines_eq (cells : List Token) :
    skipNewlines cells =
      .ok (cells.takeWhile fun cell => cell.token.isNewline).length := by
  induction cells with
  | nil => rfl
  | cons cell cells ih =>
      rw [skipNewlines, ih]
      cases hline : cell.token.isNewline with
      | true => simp [hline, Except.map]
      | false => simp [hline]

theorem Anchored.reverse_eq (h : Anchored token cells) :
    ∃ rest, cells.reverse = ⟨token, none⟩ :: rest := by
  obtain ⟨newer, rfl⟩ := h.first
  exact ⟨newer.reverse, by simp⟩

theorem settle_of_stays (hstays : stays token = true) :
    settle ⟨token, none⟩ = ⟨token, none⟩ := by
  cases token <;> first | rfl | cases hstays

theorem Anchored.settleLast (h : Anchored token cells) :
    Anchored token (settleLast cells) := by
  cases cells with
  | nil => exact absurd h.first (by simp)
  | cons last older =>
      rcases List.suffix_cons_iff.mp h.first with heq | hfirst
      · obtain ⟨rfl, rfl⟩ := List.cons.inj heq
        rw [Shell.settleLast, settle_of_stays h.fixed]
        exact h
      · exact Anchored.cons ⟨h.fixed, hfirst⟩ (settle last)

theorem Anchored.not_isNewline (h : Anchored token cells) : token.isNewline = false := by
  by_contra hline
  have hnot := stays_of_isNewline (Bool.of_not_eq_false hline)
  rw [h.fixed] at hnot
  cases hnot

theorem Anchored.skipNewlines (h : Anchored token cells) :
    skipNewlines cells.reverse = .ok 0 := by
  obtain ⟨rest, hrest⟩ := h.reverse_eq
  rw [hrest, skipNewlines_eq]
  simp [h.not_isNewline]

theorem checkCells_paren (hparen : token = .lbkt ∨ token = .rbkt) (rest : List Token) :
    checkCells skipped [] (⟨token, none⟩ :: rest) =
      (Shell.checkCells skipped [] (⟨token, none⟩ :: rest)).mapError .error := by
  rcases hparen with rfl | rfl <;> exact (settled_cons _ []).checkCells_eq rest

/-- The `;` asks for the cell before the first. -/
theorem makeCommandStream_semicolon {bytes : List UInt8} {s : Reader}
    (h : Anchored .semicolon s.cells) (hread : readBytes bytes {} = .ok s) :
    makeCommandStream bytes = .error .outOfBounds := by
  obtain ⟨last, hlast, -⟩ := h.cellBefore
  obtain ⟨rest, hrest⟩ := h.settleLast.reverse_eq
  simp only [makeCommandStream, hread, h.skipNewlines, hlast, hrest, bind, Except.bind]
  rfl

theorem makeCommandStream_paren {bytes : List UInt8} {s : Reader}
    (hparen : token = .lbkt ∨ token = .rbkt) (h : Anchored token s.cells)
    (hread : readBytes bytes {} = .ok s) (hplain : Shell.readBytes bytes {} = .ok s) :
    makeCommandStream bytes =
      ((Shell.makeCommandStream bytes).mapError .error).map fun cells => ([], cells) := by
  obtain ⟨last, hlast, -⟩ := h.cellBefore
  obtain ⟨rest, hrest⟩ := h.settleLast.reverse_eq
  have hskipped : (s.cells.reverse.takeWhile fun cell => cell.token.isNewline).length = 0 :=
    Except.ok.inj ((skipNewlines_eq _).symm.trans h.skipNewlines)
  simp only [makeCommandStream, Shell.makeCommandStream, hread, hplain, h.skipNewlines,
    hskipped, hlast, hrest, checkCells_paren hparen, bind, Except.bind]
  cases Shell.checkCells 0 [] (⟨token, none⟩ :: rest) with
  | error text => rfl
  | ok checked =>
      simp only [Except.mapError]
      split_ifs <;> rfl

/-! ## The first call -/

theorem findStreamEnd_eq (cells : List Token) :
    findStreamEnd cells =
      match cells.dropWhile (·.token ≠ .endCmd) with
      | [] => .error .outOfBounds
      | endCell :: after =>
          .ok (cells.takeWhile (·.token ≠ .endCmd) ++ [endCell], after) := by
  induction cells with
  | nil => rfl
  | cons cell cells ih =>
      by_cases hend : cell.token = .endCmd
      · simp [findStreamEnd, hend]
      · rw [findStreamEnd, if_neg hend, ih]
        simp only [ne_eq, hend, not_false_eq_true, decide_true, List.dropWhile_cons_of_pos,
          List.takeWhile_cons_of_pos]
        cases cells.dropWhile (fun cell => decide ¬cell.token = .endCmd) <;> rfl

theorem buildTokens_eq (hbefore : before ≠ []) (cells : List Token) (b : Builder) :
    buildTokens before cells b = ofBuilder (Shell.buildTokens (tokenAt before) cells b) := by
  induction before, cells, b using buildTokens.induct with
  | case1 before b => rfl
  | case2 before cell cells b hredirects ih =>
      obtain ⟨previous, older, rfl⟩ := List.exists_cons_of_ne_nil hbefore
      cases cells with
      | nil =>
          simp only [buildTokens, Shell.buildTokens, hredirects, if_true]
          rfl
      | cons operand cells =>
          simp only [buildTokens, Shell.buildTokens, hredirects, if_true, cellBefore_zero,
            bind, Except.bind, tokenAt]
          cases hcontent : operand.content with
          | none => simp [cellFrom, hcontent, ofBuilder]
          | some content =>
              cases hbuild : buildRedirection previous.token cell.token content b with
              | none => simp [cellFrom, hcontent, hbuild, ofBuilder]
              | some b' =>
                  have hrest := ih b' (List.cons_ne_nil operand _)
                  simpa [cellFrom, hcontent, hbuild, ofBuilder, tokenAt] using hrest
  | case3 before cell cells b hplain ih =>
      have hplain' : cell.token.isRedirection = false := by simpa using hplain
      rw [buildTokens_of_plain hplain', buildTokens, if_neg hplain]
      cases buildToken cell b with
      | none => rfl
      | some b' => exact ih b' (List.cons_ne_nil cell before)

theorem buildTokens_first {first : Token} (hplain : first.token.isRedirection = false)
    (cells : List Token) (b : Builder) :
    buildTokens [] (first :: cells) b =
      ofBuilder (Shell.buildTokens .null (first :: cells) b) := by
  rw [buildTokens_of_plain hplain, buildTokens, if_neg (by rw [hplain]; decide)]
  cases buildToken first b with
  | none => rfl
  | some b' => exact buildTokens_eq (List.cons_ne_nil first []) cells b'

/-- The first call on cells that start with a parenthesis. -/
theorem readCommandStream_eq {first : Token}
    (hparen : first.token = .lbkt ∨ first.token = .rbkt) (cells : List Token) :
    readCommandStream [] (first :: cells) =
      if ∃ cell ∈ cells, cell.token = .endCmd then
        ofBuilder (Shell.readCommandStream (first :: cells))
      else .error .outOfBounds := by
  have hnull : first.token ≠ .null := by rcases hparen with h | h <;> rw [h] <;> decide
  have hend : first.token ≠ .endCmd := by rcases hparen with h | h <;> rw [h] <;> decide
  have hplain : first.token.isRedirection = false := by
    rcases hparen with h | h <;> rw [h] <;> rfl
  have hstart : findStreamStart [] (first :: cells) = .ok ([], first :: cells) := by
    rw [findStreamStart, if_neg hnull]
  have htake : (first :: cells).takeWhile (·.token ≠ .endCmd) =
      first :: cells.takeWhile (·.token ≠ .endCmd) := by simp [hend]
  have hdrop : (first :: cells).dropWhile (·.token ≠ .endCmd) =
      cells.dropWhile (·.token ≠ .endCmd) := by simp [hend]
  have hnulls : (first :: cells).takeWhile (·.token = .null) = [] := by simp [hnull]
  have hset : (first :: cells).dropWhile (·.token = .null) = first :: cells := by
    simp [hnull]
  simp only [readCommandStream, Shell.readCommandStream, hstart, findStreamEnd_eq, htake,
    hdrop, hnulls, hset, bind, Except.bind]
  cases hrest : cells.dropWhile (·.token ≠ .endCmd) with
  | nil =>
      have hnone : ¬ ∃ cell ∈ cells, cell.token = .endCmd := by
        simpa [List.dropWhile_eq_nil_iff] using hrest
      rw [if_neg hnone]
  | cons endCell after =>
      have hendCell : endCell.token = .endCmd := by
        have hhead := List.head?_dropWhile_not
          (fun cell : Token => decide (cell.token ≠ .endCmd)) cells
        rw [hrest] at hhead
        simpa using hhead
      have hmem : endCell ∈ cells :=
        (List.dropWhile_suffix _).subset (hrest ▸ List.mem_cons_self)
      obtain ⟨next, hnext, -⟩ := cellFrom_zero after
      rw [if_pos ⟨endCell, hmem, hendCell⟩]
      simp only [List.cons_append, buildTokens_first hplain, hnext]
      cases Shell.buildTokens .null
        (first :: (cells.takeWhile (·.token ≠ .endCmd) ++ [endCell])) startBuilder with
      | none => simp [ofBuilder]
      | some b => simp [ofBuilder, pure, Except.pure]

/-! ## Newlines that keep their cell -/

/-- Some newline of the script does not give way. -/
def KeepsNewline (symbols : List Symbol) : Prop :=
  ¬ Windows (fun x y z => isNewline y = true → GivesWay x y z = true) (bordered symbols)

theorem cellsOf_no_newline (symbols : List Neighbour)
    (hlast : ∀ y ∈ symbols.getLast?, isNewline y = false) :
    (∀ t ∈ cellsOf symbols, t.isNewline = false) ↔
      (∀ z ∈ symbols.head?, isNewline z = false) ∧
        Windows (fun z y x => isNewline y = true → GivesWay x y z = true) symbols := by
  fun_induction cellsOf symbols with
  | case1 z y x older hgives ih =>
      obtain ⟨-, hx, -⟩ := givesWay_isNewline x y z hgives
      have hrest := ih (by simpa using hlast)
      rw [List.forall_mem_cons, kindOf_isNewline, hrest, Windows.cons_iff,
        Windows.cons_head_iff]
      simp [hx, hgives]
  | case2 z y x older hgives ih =>
      have hrest := ih (by simpa using hlast)
      rw [List.forall_mem_cons, kindOf_isNewline, hrest, Windows.cons_iff]
      simp [hgives]
  | case3 z y =>
      have hy : isNewline y = false := hlast y (by simp)
      simp [Windows, hy]
  | case4 z => simp [Windows]
  | case5 => simp [Windows]

theorem keepsNewline_iff {bytes : List UInt8} {s : Reader}
    (hread : Shell.readBytes bytes {} = .ok s) :
    KeepsNewline (symbols (untilEnd bytes)) ↔
      ∃ cell ∈ s.cells, cell.token.isNewline = true := by
  have hcells := readBytes_cells bytes
  rw [hread] at hcells
  split at hcells
  · cases hcells
  have hkinds : kinds s.cells ++ border =
      cellsOf (((symbols (untilEnd bytes)).map some).reverse ++ [none, none]) :=
    Option.some.inj hcells
  have hwindows : (bordered (symbols (untilEnd bytes))).reverse =
      none :: (((symbols (untilEnd bytes)).map some).reverse ++ [none, none]) := by
    simp [bordered]
  have hlast : (bordered (symbols (untilEnd bytes))).reverse.getLast? = some none := by
    rw [List.getLast?_reverse]
    rfl
  have hnone := cellsOf_no_newline (bordered (symbols (untilEnd bytes))).reverse
    (by rw [hlast]; rintro _ ⟨⟩; rfl)
  rw [Windows.reverse_iff, hwindows, cellsOf_none (by simp), ← hkinds] at hnone
  have hkept : (∀ t ∈ TokenType.null :: (kinds s.cells ++ border), t.isNewline = false) ↔
      ∀ cell ∈ s.cells, cell.token.isNewline = false := by
    simp only [kinds, border, List.forall_mem_cons, List.forall_mem_append,
      List.forall_mem_map]
    exact ⟨fun h => h.2.1, fun h => ⟨rfl, h, rfl, rfl, List.forall_mem_nil _⟩⟩
  have hfirst : ∀ z ∈ (none :: (((symbols (untilEnd bytes)).map some).reverse ++
      [none, none])).head?, isNewline z = false := by
    rintro _ ⟨⟩
    rfl
  rw [hkept, and_iff_right hfirst] at hnone
  rw [KeepsNewline, ← hnone]
  simp only [not_forall, Bool.not_eq_false, exists_prop]

theorem endCmd_mem_iff {bytes : List UInt8} {s : Reader} {cells : List Token}
    (h : Anchored token s.cells) (hread : Shell.readBytes bytes {} = .ok s)
    (haccepted : Shell.makeCommandStream bytes = .ok cells) :
    ∃ rest, cells = ⟨token, none⟩ :: rest ∧
      ((∃ cell ∈ rest, cell.token = .endCmd) ↔
        KeepsNewline (symbols (untilEnd bytes))) := by
  obtain ⟨s', _, _, hread', -, rfl⟩ := makeCommandStream_eq_ok haccepted
  obtain rfl : s = s' := Except.ok.inj (hread.symm.trans hread')
  obtain ⟨rest, hrest⟩ := h.reverse_eq
  have hend : token.isNewline = false := h.not_isNewline
  refine ⟨rest.map settle, ?_, ?_⟩
  · have hne : token ≠ .endCmd := by
      rintro rfl
      cases hend
    rw [acceptedCells, hrest, List.map_cons, settle_of_stays h.fixed]
    simp [hne]
  · rw [keepsNewline_iff hread]
    have hmem : ∀ cell, cell ∈ s.cells ↔ cell ∈ (⟨token, none⟩ : Token) :: rest := by
      intro cell
      rw [← hrest, List.mem_reverse]
    simp [hmem, hend, settle_eq_endCmd_iff]

/-! ## Scripts that are read in bounds -/

/-- Every look at a cell is between the first cell and the one after the last token. -/
def InBounds (bytes : List UInt8) : Prop := run bytes ≠ .error .outOfBounds

theorem inBounds_of_readBytes {bytes : List UInt8} {text : String}
    (hread : readBytes bytes {} = .error (.error text)) : InBounds bytes := by
  simp [InBounds, run, makeCommandStream, hread, bind, Except.bind]

theorem inBounds_semicolon_iff {bytes : List UInt8}
    (h : StartsWith .semicolon (readBytes bytes {}) (Shell.readBytes bytes {})) :
    InBounds bytes ↔ .unsupported ∈ symbols (untilEnd bytes) := by
  have hcells := readBytes_cells bytes
  cases hplain : Shell.readBytes bytes {} with
  | error text =>
      have hread : readBytes bytes {} = .error (.error text) := by rw [h.1, hplain]; rfl
      rw [hplain] at hcells
      split at hcells
      · rename_i hmem
        exact iff_of_true (inBounds_of_readBytes hread) hmem
      · cases hcells
  | ok s =>
      have hread : readBytes bytes {} = .ok s := by rw [h.1, hplain]; rfl
      have hmake := makeCommandStream_semicolon (h.2 s hplain) hread
      rw [hplain] at hcells
      split at hcells
      · cases hcells
      · rename_i hmem
        refine iff_of_false ?_ hmem
        simp [InBounds, run, hmake, bind, Except.bind]

theorem inBounds_paren_iff {bytes : List UInt8} (hparen : token = .lbkt ∨ token = .rbkt)
    (h : StartsWith token (readBytes bytes {}) (Shell.readBytes bytes {})) :
    InBounds bytes ↔
      HasSharedFault (symbols (untilEnd bytes)) ∨
        HasLateParen (symbols (untilEnd bytes)) ∨
        KeepsNewline (symbols (untilEnd bytes)) := by
  have hrejects := rejects_iff bytes
  rw [← or_assoc, ← hrejects]
  cases hplain : Shell.readBytes bytes {} with
  | error text =>
      have hread : readBytes bytes {} = .error (.error text) := by rw [h.1, hplain]; rfl
      refine iff_of_true (inBounds_of_readBytes hread) (.inl ⟨text, ?_⟩)
      simp [Shell.makeCommandStream, hplain, bind, Except.bind]
  | ok s =>
      have hread : readBytes bytes {} = .ok s := by rw [h.1, hplain]; rfl
      have hmake := makeCommandStream_paren hparen (h.2 s hplain) hread hplain
      cases haccepted : Shell.makeCommandStream bytes with
      | error text =>
          rw [haccepted] at hmake
          refine iff_of_true ?_ (.inl ⟨text, rfl⟩)
          simp [InBounds, run, hmake, Except.mapError, Except.map, bind, Except.bind]
      | ok cells =>
          obtain ⟨rest, rfl, hkeeps⟩ := endCmd_mem_iff (h.2 s hplain) hplain haccepted
          rw [haccepted] at hmake
          have hrun : run bytes = readCommandStream [] (⟨token, none⟩ :: rest) := by
            rw [run, hmake]
            rfl
          rw [InBounds, hrun, readCommandStream_eq hparen, ← hkeeps]
          split_ifs with hend
          · refine iff_of_true ?_ (.inr hend)
            cases Shell.readCommandStream (⟨token, none⟩ :: rest) <;> exact fun heq => by cases heq
          · refine iff_of_false (fun hin => hin rfl) ?_
            rintro (⟨_, ⟨⟩⟩ | hkept)
            exact hend hkept

theorem inBounds_iff (bytes : List UInt8) :
    InBounds bytes ↔
      firstLexeme false false (untilEnd bytes) = some .unsupported ∨
        (firstLexeme false false (untilEnd bytes) = some .semicolon ∧
          .unsupported ∈ symbols (untilEnd bytes)) ∨
        ((firstLexeme false false (untilEnd bytes) = some .lparen ∨
            firstLexeme false false (untilEnd bytes) = some .rparen) ∧
          (HasSharedFault (symbols (untilEnd bytes)) ∨
            HasLateParen (symbols (untilEnd bytes)) ∨
            KeepsNewline (symbols (untilEnd bytes)))) := by
  have hbegins : Begins (readBytes bytes {}) (Shell.readBytes bytes {})
      (firstLexeme false false (untilEnd bytes)) := readBytes_begins bytes rfl
  cases hfirst : firstLexeme false false (untilEnd bytes) with
  | none =>
      rw [hfirst] at hbegins
      obtain ⟨s, hread, hcells⟩ := hbegins
      simp [InBounds, run, makeCommandStream, hread, hcells, skipNewlines, cellFrom,
        cellBefore, Except.map, bind, Except.bind]
  | some l =>
      rw [hfirst] at hbegins
      cases l with
      | unsupported =>
          obtain ⟨text, hread⟩ := hbegins
          simp [inBounds_of_readBytes hread]
      | semicolon => simp [inBounds_semicolon_iff hbegins]
      | lparen => simp [inBounds_paren_iff (.inl rfl) hbegins]
      | rparen => simp [inBounds_paren_iff (.inr rfl) hbegins]
      | word | bar | ampersand | less | greater | newline | blank =>
          have hread : readBytes bytes {} = .error .outOfBounds := hbegins
          simp [InBounds, run, makeCommandStream, hread, bind, Except.bind]

/-- The word of `a` looks for a newline in the cell before the first. -/
theorem firstWord_not_inBounds : ¬ InBounds [97, 10] := fun h => h rfl

end Checked

end Cs111Labs.Shell
