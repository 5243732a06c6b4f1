import Cs111Labs.Shell.Command

/-!
# Reading bytes into tokens

`add_token` looks at the last two cells of the token array and may rewrite the
last one, so the array is kept newest cell first.  A cell that was not written
reads as `NULL_TOKEN`.
-/

namespace Cs111Labs.Shell

/-- `enum token_type` -/
inductive TokenType where
  | null
  | word
  | pipeline
  | and
  | halfAnd
  | or
  | lbkt
  | rbkt
  | input
  | output
  | semicolon
  | endCmd
  | halfEndCmd
  deriving DecidableEq, Repr

/-- `struct command_stream`; `none` is a `content` that was not set. -/
structure Token where
  token : TokenType
  content : Option CString := none
  deriving DecidableEq, Repr

/-- The token of a cell given by the cells from it on. -/
def tokenAt : List Token → TokenType
  | [] => .null
  | cell :: _ => cell.token

def isWordContent (nextByte : UInt8) : Bool :=
  (97 ≤ nextByte && nextByte ≤ 122) || (65 ≤ nextByte && nextByte ≤ 90) ||
    (48 ≤ nextByte && nextByte ≤ 57) || nextByte = 33 || nextByte = 37 ||
    nextByte = 43 || nextByte = 44 || nextByte = 45 || nextByte = 46 ||
    nextByte = 47 || nextByte = 58 || nextByte = 64 || nextByte = 94 ||
    nextByte = 95

def isValidChar (nextByte : UInt8) : Bool :=
  isWordContent nextByte || nextByte = 59 || nextByte = 124 ||
    nextByte = 38 || nextByte = 40 || nextByte = 41 || nextByte = 60 ||
    nextByte = 62 || nextByte = 9 || nextByte = 32 || nextByte = 10

/-- A newline cell. -/
def TokenType.isNewline (token : TokenType) : Bool :=
  token = .endCmd || token = .halfEndCmd

/-- The cells after which a newline cell gives way to a word. -/
def TokenType.absorbsNewline (token : TokenType) : Bool :=
  token = .and || token = .or || token = .pipeline || token = .input ||
    token = .output

/-- Write `cell` over the last cell. -/
def overwrite (cell : Token) (cells : List Token) : List Token :=
  cell :: cells.tail

/-- The calls with `WORD_TOKEN`. -/
def addWord (word : CString) (cells : List Token) : List Token :=
  if word = [] then cells
  else if (tokenAt cells).isNewline && (tokenAt cells.tail).absorbsNewline then
    overwrite ⟨.word, some word⟩ cells
  else ⟨.word, some word⟩ :: cells

/-- The calls with the other token types. -/
def addToken (tType : TokenType) (cells : List Token) :
    Except String (List Token) :=
  match tType with
  | .halfEndCmd =>
      if tokenAt cells = .halfEndCmd then .ok (overwrite ⟨.endCmd, none⟩ cells)
      else if tokenAt cells = .endCmd then .ok cells
      else .ok (⟨.halfEndCmd, none⟩ :: cells)
  | .pipeline =>
      if tokenAt cells = .pipeline then .ok (overwrite ⟨.or, none⟩ cells)
      else if tokenAt cells = .or then .error "Undefined usage of '|'"
      else .ok (⟨.pipeline, none⟩ :: cells)
  | .halfAnd =>
      if tokenAt cells = .halfAnd then .ok (overwrite ⟨.and, none⟩ cells)
      else if tokenAt cells = .and then .error "Undefined usage of '&'"
      else .ok (⟨.halfAnd, none⟩ :: cells)
  | .semicolon | .lbkt | .rbkt => .ok (⟨tType, none⟩ :: cells)
  | .input | .output =>
      if (tokenAt cells).isNewline && tokenAt cells.tail = .word then
        .ok (overwrite ⟨tType, none⟩ cells)
      else .ok (⟨tType, none⟩ :: cells)
  | _ => .error "Token undefined!"

/-- The variables of the first loop of `make_command_stream`. -/
structure Reader where
  isComments : Bool := false
  wordBuffer : CString := []
  cells : List Token := []
  deriving DecidableEq, Repr

/-- The token that a special byte adds after the pending word. -/
def specialToken (nextByte : UInt8) : Option TokenType :=
  if nextByte = 59 then some .semicolon
  else if nextByte = 10 then some .halfEndCmd
  else if nextByte = 124 then some .pipeline
  else if nextByte = 38 then some .halfAnd
  else if nextByte = 40 then some .lbkt
  else if nextByte = 41 then some .rbkt
  else if nextByte = 60 then some .input
  else if nextByte = 62 then some .output
  else none

def ignoreComments (nextByte : UInt8) (isComments : Bool) : Bool :=
  if nextByte = 35 then true
  else if nextByte = 10 then false
  else isComments

def readByte (nextByte : UInt8) (s : Reader) : Except String Reader :=
  let s := { s with isComments := ignoreComments nextByte s.isComments }
  if s.isComments then .ok s
  else if isValidChar nextByte then
    if isWordContent nextByte then
      .ok { s with wordBuffer := s.wordBuffer ++ [nextByte] }
    else
      let cells := addWord s.wordBuffer s.cells
      match specialToken nextByte with
      | none => .ok { s with wordBuffer := [], cells := cells }
      | some tType =>
          (addToken tType cells).map fun cells =>
            { s with wordBuffer := [], cells := cells }
  else .error "unsupported character!"

/-- A byte 255 becomes the `char` -1 and ends the loop like the end of file. -/
def readBytes : List UInt8 → Reader → Except String Reader
  | [], s => .ok s
  | nextByte :: bytes, s =>
      if nextByte = 255 then .ok s
      else readByte nextByte s >>= readBytes bytes

end Cs111Labs.Shell
