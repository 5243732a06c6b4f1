import Cs111Labs.Shell.Token

/-!
# The shell subset of the README

Scripts are read as symbols first.  `Derives` is the grammar of the README:
simple commands, subshells, commands with redirections, pipelines, and-ors and
complete commands.  Newlines substitute for semicolons, stand before `(`, `)`
and first words, and follow special tokens other than `<` and `>`.
-/

namespace Cs111Labs.Shell

/-- One byte that is no part of a word, or a whole word. -/
inductive Lexeme where
  | word
  | semicolon
  | bar
  | ampersand
  | lparen
  | rparen
  | less
  | greater
  | newline
  | blank
  | unsupported
  deriving DecidableEq, Repr

def lexeme (byte : UInt8) : Lexeme :=
  if byte = 59 then .semicolon
  else if byte = 10 then .newline
  else if byte = 124 then .bar
  else if byte = 38 then .ampersand
  else if byte = 40 then .lparen
  else if byte = 41 then .rparen
  else if byte = 60 then .less
  else if byte = 62 then .greater
  else .blank

/-- The lexemes outside comments; a word ends at the first byte after it. -/
def lexemes (isComments inWord : Bool) : List UInt8 → List Lexeme
  | [] => []
  | byte :: bytes =>
      if ignoreComments byte isComments then lexemes true inWord bytes
      else if !isValidChar byte then .unsupported :: lexemes false inWord bytes
      else if isWordContent byte then lexemes false true bytes
      else
        (if inWord then [.word] else []) ++
          lexeme byte :: lexemes false false bytes

/-- Some `#` comes right after a word, so that it starts no comment. -/
def hasGluedComment (isComments inWord : Bool) : List UInt8 → Bool
  | [] => false
  | byte :: bytes =>
      if ignoreComments byte isComments then
        (!isComments && inWord) || hasGluedComment true false bytes
      else hasGluedComment false (isWordContent byte) bytes

inductive Symbol where
  | word
  | semicolon
  | pipe
  | ampersand
  | andIf
  | orIf
  | lparen
  | rparen
  | less
  | greater
  | newline
  /-- Two or more newlines, with at most blanks and comments between them. -/
  | newlines
  | unsupported
  deriving DecidableEq, Repr

/-- Put a lexeme before the symbols that follow it. -/
def pushLexeme : Lexeme → List Symbol → List Symbol
  | .blank, symbols => symbols
  | .bar, .pipe :: symbols => .orIf :: symbols
  | .bar, .orIf :: symbols => .unsupported :: symbols
  | .bar, symbols => .pipe :: symbols
  | .ampersand, .ampersand :: symbols => .andIf :: symbols
  | .ampersand, .andIf :: symbols => .unsupported :: symbols
  | .ampersand, symbols => .ampersand :: symbols
  | .newline, .newline :: symbols | .newline, .newlines :: symbols =>
      .newlines :: symbols
  | .newline, symbols => .newline :: symbols
  | .word, symbols => .word :: symbols
  | .semicolon, symbols => .semicolon :: symbols
  | .lparen, symbols => .lparen :: symbols
  | .rparen, symbols => .rparen :: symbols
  | .less, symbols => .less :: symbols
  | .greater, symbols => .greater :: symbols
  | .unsupported, symbols => .unsupported :: symbols

/-- Blanks are left out, and three or more `|` or `&` in a row make no token. -/
def symbolsOf (lexemes : List Lexeme) : List Symbol :=
  lexemes.foldr pushLexeme []

/-- Blanks between two `|` or between two `&`. -/
def HasSpacedOperator (lexemes : List Lexeme) : Prop :=
  ∃ operator ∈ [Lexeme.bar, .ampersand], ∃ n,
    operator :: List.replicate (n + 1) .blank ++ [operator] <:+: lexemes

def symbols (script : List UInt8) : List Symbol :=
  symbolsOf (lexemes false false script)

/-! ## The grammar -/

inductive Phrase where
  | simple
  | subshell
  | command
  | pipeline
  | andOr
  | list
  | complete
  deriving DecidableEq, Repr

/-- White space made of newlines. -/
def Newlines (space : List Symbol) : Prop :=
  space = [] ∨ space = [.newline] ∨ space = [.newlines]

/-- The I/O redirection of a command. -/
def Redirection (symbols : List Symbol) : Prop :=
  symbols = [] ∨ symbols = [.less, .word] ∨ symbols = [.greater, .word] ∨
    symbols = [.less, .word, .greater, .word]

/-- What stands between the and-ors of a complete command. -/
def Separator (symbols : List Symbol) : Prop :=
  (∃ space, symbols = .semicolon :: space ∧ Newlines space) ∨
    symbols = [.newline] ∨ symbols = [.newlines]

/-- What may follow the last and-or of a complete command. -/
def Ending (symbols : List Symbol) : Prop :=
  Newlines symbols ∨ Separator symbols

inductive Derives : Phrase → List Symbol → Prop
  | word : Derives .simple [.word]
  | words {rest : List Symbol} : Derives .simple rest →
      Derives .simple (.word :: rest)
  | subshell {body : List Symbol} : Derives .complete body →
      Derives .subshell (.lparen :: body ++ [.rparen])
  | simpleCommand {head redirection : List Symbol} : Derives .simple head →
      Redirection redirection → Derives .command (head ++ redirection)
  | subshellCommand {head redirection : List Symbol} : Derives .subshell head →
      Redirection redirection → Derives .command (head ++ redirection)
  | pipelineOne {first : List Symbol} : Derives .command first →
      Derives .pipeline first
  | pipelineMore {first space rest : List Symbol} : Derives .command first →
      Newlines space → Derives .pipeline rest →
      Derives .pipeline (first ++ .pipe :: space ++ rest)
  | andOrOne {first : List Symbol} : Derives .pipeline first →
      Derives .andOr first
  | andOrMore {first space rest : List Symbol} {operator : Symbol} :
      Derives .pipeline first → operator = .andIf ∨ operator = .orIf →
      Newlines space → Derives .andOr rest →
      Derives .andOr (first ++ operator :: space ++ rest)
  | listOne {first ending : List Symbol} : Derives .andOr first →
      Ending ending → Derives .list (first ++ ending)
  | listMore {first separator rest : List Symbol} : Derives .andOr first →
      Separator separator → Derives .list rest →
      Derives .list (first ++ separator ++ rest)
  | complete {space rest : List Symbol} : Newlines space → Derives .list rest →
      Derives .complete (space ++ rest)

/-- The script, which ends in a newline, is in the shell subset. -/
def InSubset (script : List UInt8) : Prop :=
  hasGluedComment false false script = false ∧
    ¬ HasSpacedOperator (lexemes false false script) ∧
    Derives .complete (symbols script)

end Cs111Labs.Shell
