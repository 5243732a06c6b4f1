import Mathlib.Data.Fintype.Option
import Cs111Labs.Foundation.Windows
import Cs111Labs.Shell.Subset

/-!
# The grammar by rules about neighbours

A scanner with ten states and a depth decides the grammar of the README, and
the state only depends on the last two symbols.  What is wrong with a script is
therefore either the nesting of its parentheses or a symbol that may not follow
the two before it.
-/

namespace Cs111Labs.Shell

open Foundation

/-! ## Rules -/

namespace Symbol

def isOperator (s : Symbol) : Bool := s = pipe || s = andIf || s = orIf

def isRedirection (s : Symbol) : Bool := s = less || s = greater

def isNewline (s : Symbol) : Bool := s = newline || s = newlines

end Symbol

/-- A place in a script; `none` is its border. -/
abbrev Neighbour := Option Symbol

namespace Neighbour

def isOperator (y : Neighbour) : Bool := y.any Symbol.isOperator

def isRedirection (y : Neighbour) : Bool := y.any Symbol.isRedirection

def isNewline (y : Neighbour) : Bool := y.any Symbol.isNewline

/-- A right operand is due. -/
def wantsOperand (y : Neighbour) : Bool := isOperator y || isRedirection y

def endsCommand (y : Neighbour) : Bool := y = some .word || y = some .rparen

end Neighbour

open Neighbour

/-- `z` after `x` and `y` is outside the subset, and the reader rejects it. -/
def sharedFault (x y : Neighbour) : Neighbour → Bool
  | none => wantsOperand y || (isNewline y && wantsOperand x)
  | some z =>
      ((z.isOperator || z = .semicolon) && !endsCommand y) ||
        (z.isRedirection && !(endsCommand y || (isNewline y && x = some .word))) ||
        (wantsOperand y && !(z = .word || z = .lparen || z.isNewline)) ||
        (isNewline y && wantsOperand x && !(z = .word || z = .lparen)) ||
        (y = some .newlines && isRedirection x && z = .lparen) ||
        z = .ampersand || z = .unsupported

/-- `z` after `x` and `y` is outside the subset, and the reader lets it pass. -/
def missedFault (x y : Neighbour) : Neighbour → Bool
  | none => y = none || (isNewline y && x = none)
  | some .word => y = some .rparen || (y = some .word && isRedirection x)
  | some .lparen => endsCommand y || isRedirection y
  | some .rparen =>
      y = none || y = some .lparen ||
        (isNewline y && (x = none || x = some .lparen))
  | some .newline | some .newlines => isRedirection y
  | some .less =>
      (y = some .word && isRedirection x) || (isNewline y && x = some .word)
  | some .greater =>
      (y = some .word && x = some .greater) || (isNewline y && x = some .word)
  | _ => false

/-- `z` after `x` and `y` is in the subset, but the reader rejects it. -/
def lateFault (x y z : Neighbour) : Bool :=
  isOperator x && y = some .newlines && z = some .lparen

/-- The neighbours of a script, with its borders. -/
def bordered (symbols : List Symbol) : List Neighbour :=
  none :: none :: symbols.map some ++ [none]

/-- Some prefix closes more parentheses than it opens. -/
def ClosesEarly (symbols : List Symbol) : Prop :=
  ∃ before after, symbols = before ++ after ∧
    before.count .lparen < before.count .rparen

/-- Neighbours that would have been one symbol. -/
def Merges (y z : Neighbour) : Bool :=
  (isNewline y && isNewline z) ||
    ((y = some .pipe || y = some .orIf) && (z = some .pipe || z = some .orIf)) ||
    ((y = some .ampersand || y = some .andIf) &&
      (z = some .ampersand || z = some .andIf))

/-! ## The scanner -/

inductive ScanState where
  | start
  | opened
  | afterOperator
  | between
  | words
  | closed
  | less
  | afterLess
  | greater
  | afterGreater
  deriving DecidableEq, Repr

namespace ScanState

def final (q : ScanState) : Bool :=
  q = between || q = words || q = closed || q = afterLess || q = afterGreater

/-- The end of a command, apart from redirections and words. -/
def nextAfterCommand : Symbol → Option ScanState
  | .pipe | .andIf | .orIf => some afterOperator
  | .semicolon | .newline | .newlines => some between
  | .rparen => some closed
  | _ => none

def next : ScanState → Symbol → Option ScanState
  | start, .word | opened, .word | afterOperator, .word | between, .word =>
      some words
  | start, .lparen | opened, .lparen | afterOperator, .lparen | between, .lparen =>
      some opened
  | start, .newline | start, .newlines => some start
  | opened, .newline | opened, .newlines => some opened
  | afterOperator, .newline | afterOperator, .newlines => some afterOperator
  | between, .newline | between, .newlines => some between
  | between, .rparen => some closed
  | words, .word => some words
  | words, .less | closed, .less => some less
  | words, .greater | closed, .greater | afterLess, .greater => some greater
  | less, .word => some afterLess
  | greater, .word => some afterGreater
  | words, z | closed, z | afterLess, z | afterGreater, z => nextAfterCommand z
  | _, _ => none

/-- The state after the two symbols `x` and `y`. -/
def after (x : Neighbour) : Neighbour → ScanState
  | none => start
  | some .word =>
      if x = some .less then afterLess
      else if x = some .greater then afterGreater
      else words
  | some .pipe | some .andIf | some .orIf => afterOperator
  | some .semicolon => between
  | some .lparen => opened
  | some .rparen => closed
  | some .less => less
  | some .greater => greater
  | some .newline | some .newlines =>
      if x = none then start
      else if isOperator x then afterOperator
      else if x = some .lparen then opened
      else between
  | some .ampersand | some .unsupported => start

end ScanState

/-- The depth of parentheses after a symbol. -/
def depthAfter (depth : Nat) : Symbol → Option Nat
  | .lparen => some (depth + 1)
  | .rparen => if depth = 0 then none else some (depth - 1)
  | _ => some depth

def accepts : ScanState → Nat → List Symbol → Bool
  | q, depth, [] => depth = 0 && q.final
  | q, depth, z :: rest =>
      match q.next z, depthAfter depth z with
      | some q', some depth' => accepts q' depth' rest
      | _, _ => false

def nests : Nat → List Symbol → Bool
  | depth, [] => depth = 0
  | depth, z :: rest =>
      match depthAfter depth z with
      | some depth' => nests depth' rest
      | none => false

/-! ## The state depends on two symbols -/

def Symbol.all : List Symbol :=
  [.word, .semicolon, .pipe, .ampersand, .andIf, .orIf, .lparen, .rparen, .less,
    .greater, .newline, .newlines, .unsupported]

instance : Fintype Symbol where
  elems := ⟨Symbol.all, by decide⟩
  complete s := by cases s <;> decide

/-- The pairs of symbols that a scan can come from. -/
def Scanned (x y : Neighbour) : Bool :=
  !Merges x y && !(isRedirection x && isNewline y) && y ≠ some .ampersand &&
    y ≠ some .unsupported && (y ≠ none || x = none)

def goodNext (x y z : Neighbour) : Bool :=
  !sharedFault x y z && !missedFault x y z

theorem next_after : ∀ x y : Neighbour, ∀ z : Symbol, Scanned x y = true →
    Merges y (some z) = false →
    (ScanState.after x y).next z =
      (if goodNext x y (some z) then some (ScanState.after y (some z)) else none) ∧
    (goodNext x y (some z) = true → Scanned y (some z) = true) := by
  decide

theorem final_after : ∀ x y : Neighbour, Scanned x y = true →
    goodNext x y none =
      ((ScanState.after x y).final || ScanState.after x y = .opened) := by
  decide

/-- No two neighbours of `y` and `symbols` would have been one symbol. -/
def Merged : Neighbour → List Symbol → Prop
  | _, [] => True
  | y, z :: rest => Merges y (some z) = false ∧ Merged (some z) rest

/-- An open parenthesis just before the place is counted in the depth. -/
def Opened (q : ScanState) (depth : Nat) : Prop := q = .opened → 0 < depth

theorem next_opened {q : ScanState} {z : Symbol} (h : q.next z = some .opened) :
    z = .lparen ∨ isNewline (some z) = true ∧ q = .opened := by
  cases q <;> cases z <;> first | exact .inl rfl | exact .inr ⟨rfl, rfl⟩ | cases h

theorem opened_next {q q' : ScanState} {z : Symbol} {depth depth' : Nat}
    (hopened : Opened q depth) (hq : q.next z = some q')
    (hdepth : depthAfter depth z = some depth') : Opened q' depth' := by
  rintro rfl
  rcases next_opened hq with rfl | ⟨hnewline, rfl⟩
  · obtain rfl : depth + 1 = depth' := by simpa [depthAfter] using hdepth
    exact Nat.succ_pos depth
  · have hpos := hopened rfl
    cases z with
    | newline | newlines =>
        obtain rfl : depth = depth' := by simpa [depthAfter] using hdepth
        exact hpos
    | _ => cases hnewline

theorem accepts_after (x y : Neighbour) (depth : Nat) (rest : List Symbol)
    (hscanned : Scanned x y = true) (hmerged : Merged y rest)
    (hopened : Opened (ScanState.after x y) depth) :
    accepts (ScanState.after x y) depth rest = true ↔
      Windows (fun x y z => goodNext x y z = true)
          (x :: y :: (rest.map some ++ [none])) ∧
        nests depth rest = true := by
  induction rest generalizing x y depth with
  | nil =>
      have hfinal := final_after x y hscanned
      simp only [accepts, nests, List.map_nil, List.nil_append, Windows, and_true,
        hfinal, Bool.and_eq_true, decide_eq_true_eq, Bool.or_eq_true]
      constructor
      · rintro ⟨hdepth, hq⟩
        exact ⟨.inl hq, hdepth⟩
      · rintro ⟨hq | hq, hdepth⟩
        · exact ⟨hdepth, hq⟩
        · have hpos := hopened hq
          omega
  | cons z rest ih =>
      obtain ⟨hnot, hmerged⟩ := hmerged
      obtain ⟨hnext, hscanned'⟩ := next_after x y z hscanned hnot
      rw [List.map_cons, List.cons_append, Windows.cons_iff]
      simp only [accepts, nests]
      rw [hnext]
      cases hgood : goodNext x y (some z) with
      | false => simp
      | true =>
          rw [hgood, if_pos rfl] at hnext
          cases hdepth : depthAfter depth z with
          | none => simp
          | some depth' =>
              simp only [if_true, true_and]
              exact ih y (some z) depth' (hscanned' hgood) hmerged
                (opened_next hopened hnext hdepth)

/-! ## Nesting -/

private theorem forall_prefix_cons {P : List Symbol → Prop} {z : Symbol}
    {rest : List Symbol} :
    (∀ before after, z :: rest = before ++ after → P before) ↔
      P [] ∧ ∀ before after, rest = before ++ after → P (z :: before) := by
  constructor
  · intro h
    exact ⟨h [] (z :: rest) rfl, fun before after heq =>
      h (z :: before) after (by rw [heq]; rfl)⟩
  · rintro ⟨hnil, hcons⟩ before after heq
    cases before with
    | nil => exact hnil
    | cons z' before =>
        obtain ⟨rfl, hrest⟩ := List.cons.inj heq
        exact hcons before after hrest

theorem nests_iff (depth : Nat) (symbols : List Symbol) :
    nests depth symbols = true ↔
      symbols.count .rparen = depth + symbols.count .lparen ∧
        ∀ before after, symbols = before ++ after →
          before.count .rparen ≤ depth + before.count .lparen := by
  induction symbols generalizing depth with
  | nil =>
      simp only [nests, decide_eq_true_eq, List.count_nil, Nat.add_zero,
        List.nil_eq_append_iff]
      constructor
      · rintro rfl
        exact ⟨rfl, by rintro _ _ ⟨rfl, rfl⟩; simp⟩
      · rintro ⟨hdepth, -⟩
        exact hdepth.symm
  | cons z rest ih =>
      rw [forall_prefix_cons]
      cases z with
      | lparen =>
          simp only [nests, depthAfter, ih, List.count_cons, List.count_nil]
          simp [Nat.add_assoc, Nat.add_comm 1]
      | rparen =>
          cases depth with
          | zero =>
              constructor
              · simp [nests, depthAfter]
              · rintro ⟨-, -, hprefix⟩
                have hfirst := hprefix [] rest rfl
                simp at hfirst
          | succ depth =>
              have hdepth : nests (depth + 1) (.rparen :: rest) = nests depth rest := by
                simp [nests, depthAfter]
              rw [hdepth, ih]
              simp [Nat.add_right_comm depth 1]
      | word | semicolon | pipe | ampersand | andIf | orIf | less | greater
        | newline | newlines | unsupported =>
          simp only [nests, depthAfter, ih, List.count_cons, List.count_nil]
          simp

theorem nests_zero_iff (symbols : List Symbol) :
    nests 0 symbols = true ↔
      symbols.count .lparen = symbols.count .rparen ∧ ¬ ClosesEarly symbols := by
  rw [nests_iff, Nat.zero_add, ClosesEarly, eq_comm]
  refine and_congr_right fun _ => ?_
  push Not
  simp

end Cs111Labs.Shell
