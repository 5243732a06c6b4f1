import Cs111Labs.Shell.Grammar

/-!
# Building command trees

`read_command_stream` turns the tokens up to the next `ENDCMD_TOKEN` into nodes
that it changes in place.  A call that follows a pointer or reads a `content`
that was not set does not return; it is `none` here.
-/

namespace Cs111Labs.Shell

abbrev Ptr := Nat

/-- `enum command_type` -/
inductive CommandType where
  | operator (operator : Operator)
  | simpleCommand
  | subshellCommand
  deriving DecidableEq, Repr

/-- The member of the union `u` that was written last. -/
inductive Members where
  | word (word : List CString)
  | command (first second : Option Ptr)
  | subshellCommand (body : Option Ptr)
  deriving DecidableEq, Repr

/-- `struct command`; `none` as `type` is a type that was not assigned. -/
structure Node where
  type : Option CommandType := none
  input : Option CString := none
  output : Option CString := none
  u : Members := .command none none
  deriving DecidableEq, Repr

/-- `u.command[1]` -/
def Members.second : Members → Option Ptr
  | .command _ ptr => ptr
  | _ => none

def Members.setSecond (ptr : Option Ptr) : Members → Members
  | .command first _ => .command first ptr
  | u => u

/-- `u.subshell_command` -/
def Members.body : Members → Option Ptr
  | .subshellCommand ptr => ptr
  | _ => none

def Members.words : Members → List CString
  | .word words => words
  | _ => []

/-- The variables of `read_command_stream` and the nodes it has allocated. -/
structure Builder where
  heap : Ptr → Node
  next : Ptr
  commandRoot : Ptr
  parseCommand : Ptr
  subshellRoot : Option Ptr := none
  isSubshell : Bool := false

def startBuilder : Builder where
  heap := fun _ => {}
  next := 1
  commandRoot := 0
  parseCommand := 0

def Builder.write (b : Builder) (ptr : Ptr) (node : Node) : Builder :=
  { b with heap := Function.update b.heap ptr node }

/-- The cell that is freed for a word is the one allocated again. -/
def buildWord (content : CString) (b : Builder) : Builder :=
  let node := b.heap b.parseCommand
  if node.type = some .simpleCommand then
    b.write b.parseCommand
      { node with u := .word (node.u.words ++ [content]) }
  else
    b.write b.parseCommand
      { type := some .simpleCommand, u := .word [content] }

/-- The node that an operator goes above. -/
def Builder.top (b : Builder) : Option Ptr :=
  if b.isSubshell then b.subshellRoot.bind fun ptr => (b.heap ptr).u.body
  else some b.commandRoot

def Builder.setTop (b : Builder) (ptr : Ptr) : Builder :=
  if b.isSubshell then
    match b.subshellRoot with
    | none => b
    | some root =>
        b.write root { b.heap root with u := .subshellCommand (some ptr) }
  else { b with commandRoot := ptr }

/-- A new node for `operator` above `left`, and parsing goes on at its right. -/
def Builder.putAbove (left : Option Ptr) (operator : Operator) (b : Builder) :
    Builder :=
  let newNode := b.next
  let right := b.next + 1
  { (b.write newNode
      { type := some (.operator operator)
        u := .command left (some right) }).write right {} with
    next := b.next + 2
    parseCommand := right }

/--
The node for `operator` goes above the top node, or above the right child of
the top node if `below` holds of its operator.
-/
def buildOperator (below : Operator → Bool) (operator : Operator)
    (b : Builder) : Option Builder :=
  b.top.map fun top =>
    let node := b.heap top
    match node.type with
    | some (.operator topOperator) =>
        if below topOperator then
          (b.write top { node with u := node.u.setSecond (some b.next) }).putAbove
            node.u.second operator
        else (b.setTop b.next).putAbove (some top) operator
    | _ => (b.setTop b.next).putAbove (some top) operator

def buildPipeline : Builder → Option Builder :=
  buildOperator (fun top => top = .andCommand || top = .orCommand ||
    top = .sequenceCommand) .pipeCommand

def buildAnd : Builder → Option Builder :=
  buildOperator (fun top => top = .sequenceCommand) .andCommand

def buildOr : Builder → Option Builder :=
  buildOperator (fun top => top = .sequenceCommand) .orCommand

def buildSemicolon : Builder → Option Builder :=
  buildOperator (fun _ => false) .sequenceCommand

def buildLbkt (b : Builder) : Builder :=
  let body := b.next
  { (b.write b.parseCommand
      { b.heap b.parseCommand with
        type := some .subshellCommand
        u := .subshellCommand (some body) }).write body
        { u := .subshellCommand none } with
    next := b.next + 1
    isSubshell := true
    subshellRoot := some b.parseCommand
    parseCommand := body }

def TokenType.isRedirection (token : TokenType) : Bool :=
  token = .input || token = .output

def setRedirection (token : TokenType) (content : CString) (node : Node) : Node :=
  if token = .input then { node with input := some content }
  else { node with output := some content }

/-- A redirection after `)` belongs to the last subshell that was opened. -/
def buildRedirection (previous token : TokenType) (content : CString)
    (b : Builder) : Option Builder :=
  let target := if previous = .rbkt then b.subshellRoot else some b.parseCommand
  target.map fun ptr => b.write ptr (setRedirection token content (b.heap ptr))

/-- One token that is not a redirection. -/
def buildToken (cell : Token) (b : Builder) : Option Builder :=
  match cell.token with
  | .word => cell.content.map fun content => buildWord content b
  | .pipeline => buildPipeline b
  | .and => buildAnd b
  | .or => buildOr b
  | .semicolon => buildSemicolon b
  | .lbkt => some (buildLbkt b)
  | .rbkt => some { b with isSubshell := false }
  | _ => some b

/-- `previous` is the token at `stream_ptr-1`. -/
def buildTokens : TokenType → List Token → Builder → Option Builder
  | _, [], b => some b
  | previous, cell :: cells, b =>
      if cell.token.isRedirection then
        match cells with
        | [] => none
        | operand :: cells =>
            operand.content.bind fun content =>
              (buildRedirection previous cell.token content b).bind
                (buildTokens operand.token cells)
      else (buildToken cell b).bind (buildTokens cell.token cells)

/-- What a call of `read_command_stream` returns. -/
structure Parsed where
  heap : Ptr → Node
  commandRoot : Ptr

/-- The cell after the command, if it is unset, ends an empty command. -/
def endNext : List Token → List Token
  | [] => [⟨.endCmd, none⟩]
  | cell :: cells =>
      (if cell.token = .null then { cell with token := .endCmd } else cell) ::
        cells

def clear (cell : Token) : Token := { cell with token := .null }

def readCommandStream (s : List Token) : Option (Option Parsed × List Token) :=
  let start := s.takeWhile (·.token = .null)
  let rest := s.dropWhile (·.token = .null)
  let command := rest.takeWhile (·.token ≠ .endCmd)
  match rest.dropWhile (·.token ≠ .endCmd) with
  | [] => none
  | endCell :: after =>
      if command = [] then some (none, s)
      else
        (buildTokens .null (command ++ [endCell]) startBuilder).map fun b =>
          (some ⟨b.heap, b.commandRoot⟩,
            start ++ (command ++ [endCell]).map clear ++ endNext after)

/-- One of the successive calls returns `command`. -/
inductive Returned : List Token → Parsed → Prop
  | now {s rest : List Token} {command : Parsed} :
      readCommandStream s = some (some command, rest) → Returned s command
  | later {s rest : List Token} {result : Option Parsed} {command : Parsed} :
      readCommandStream s = some (result, rest) → Returned rest command →
      Returned s command

end Cs111Labs.Shell
