import Cs111Labs.Shell.Token

/-!
# The grammar check of `make_command_stream`

One pass over the token array in which newline cells become `ENDCMD_TOKEN`.
-/

namespace Cs111Labs.Shell

def TokenType.endsCommand (token : TokenType) : Bool :=
  token = .word || token = .rbkt

def TokenType.startsCommand (token : TokenType) : Bool :=
  token = .word || token = .lbkt

/--
The cells before `gra_check`, newest first, and those after it; `atStart` is
the test `gra_check-1 < command_s`.
-/
def checkTwosides (before after : List Token) (atStart : Bool) : Bool :=
  let leftSide := (tokenAt before).endsCommand ||
    (tokenAt before = .halfEndCmd && (tokenAt before.tail).endsCommand)
  let rightSide := (tokenAt after).startsCommand ||
    (tokenAt after = .halfEndCmd && (tokenAt after.tail).startsCommand)
  if tokenAt after = .endCmd || atStart then true
  else !(leftSide && rightSide)

/-- The checks of AND, OR and PIPELINE cells. -/
def checkOperator (name : String) (before after : List Token) (atStart : Bool) :
    Except String Unit :=
  if checkTwosides before after atStart then
    .error ("incomplete command of '" ++ name ++ "'!")
  else if !(tokenAt before).endsCommand then
    .error ("undefined syntax of '" ++ name ++ "'!")
  else .ok ()

/-- The texts of the two redirections are exchanged. -/
def checkToken (cell : Token) (before after : List Token) (atStart : Bool) :
    Except String Unit :=
  match cell.token with
  | .and => checkOperator "&&" before after atStart
  | .or => checkOperator "||" before after atStart
  | .pipeline => checkOperator "|" before after atStart
  | .input =>
      if checkTwosides before after atStart then
        .error "incomplete command of '>'!"
      else .ok ()
  | .output =>
      if checkTwosides before after atStart then
        .error "incomplete command of '<'!"
      else .ok ()
  | .halfAnd => .error "undefined syntax of '&'!"
  | .semicolon =>
      if !(tokenAt before).endsCommand then .error "undefined syntax of ';'!"
      else .ok ()
  | _ => .ok ()

/-- What the pass leaves in a cell. -/
def settle (cell : Token) : Token :=
  if cell.token = .halfEndCmd then { cell with token := .endCmd } else cell

/-- The loop over `gra_check`; `skipped` cells lie before `command_s`. -/
def checkCells (skipped : Nat) (before : List Token) :
    List Token → Except String (List Token)
  | [] => .ok before.reverse
  | cell :: after =>
      checkToken cell before after (before.length < skipped + 1) >>= fun _ =>
        checkCells skipped (settle cell :: before) after

/-- A pass without errors only settles the cells. -/
theorem checkCells_eq_ok {skipped : Nat} {before cells result : List Token}
    (h : checkCells skipped before cells = .ok result) :
    result = before.reverse ++ cells.map settle := by
  induction cells generalizing before with
  | nil => simpa using (Except.ok.inj h).symm
  | cons cell after ih =>
      simp only [checkCells] at h
      cases hcheck : checkToken cell before after (before.length < skipped + 1) with
      | error text => rw [hcheck] at h; cases h
      | ok _ =>
          rw [hcheck] at h
          simpa using ih h

/-- The last cell stands for the end of a command. -/
def settleLast : List Token → List Token
  | [] => []
  | cell :: older => settle cell :: older

def countToken (token : TokenType) (cells : List Token) : Nat :=
  cells.countP fun cell => cell.token = token

/-- The cells from `command_s` on. -/
def makeCommandStream (bytes : List UInt8) : Except String (List Token) := do
  let s ← readBytes bytes {}
  let cells := s.cells.reverse
  let skipped := (cells.takeWhile fun cell => cell.token.isNewline).length
  let checked ← checkCells skipped [] (settleLast s.cells).reverse
  if countToken .lbkt checked > countToken .rbkt checked then
    .error "missing ')'"
  else if countToken .lbkt checked < countToken .rbkt checked then
    .error "missing '('"
  else .ok (checked.drop skipped)

end Cs111Labs.Shell
