import Mathlib.Data.List.Basic
import Mathlib.Tactic.Common

/-!
# Initializer lists of C

The part of C that the definition of an initialized byte array needs: its
tokens, its integer constants, the initializers between the braces with or
without a designator, and what the array holds after them.
-/

namespace Cs111Labs

inductive CToken where
  | word (w : List Char)
  | lbrace
  | rbrace
  | lbrack
  | rbrack
  | equals
  | comma
  | semicolon
  | other (c : Char)
deriving Repr, DecidableEq

namespace Initializer

/-! ## Tokens -/

def isWordChar (c : Char) : Bool :=
  c.isAlphanum || c = '_'

def punctuator (c : Char) : CToken :=
  if c = '\x7b' then .lbrace
  else if c = '\x7d' then .rbrace
  else if c = '[' then .lbrack
  else if c = ']' then .rbrack
  else if c = '=' then .equals
  else if c = ',' then .comma
  else if c = ';' then .semicolon
  else .other c

def endWord (w : List Char) (ts : List CToken) : List CToken :=
  if w = [] then ts else .word w :: ts

/-- The tokens of a text, `w` being the word read so far. -/
def tokens : List Char → List Char → List CToken
  | w, [] => endWord w []
  | w, c :: cs =>
      if isWordChar c then tokens (w ++ [c]) cs
      else endWord w
        (if c.isWhitespace then tokens [] cs
         else punctuator c :: tokens [] cs)

theorem tokens_append {w s : List Char} (hs : s.all isWordChar)
    (rest : List Char) : tokens w (s ++ rest) = tokens (w ++ s) rest := by
  induction s generalizing w with
  | nil => simp
  | cons c s ih =>
      rw [List.all_cons, Bool.and_eq_true] at hs
      rw [List.cons_append, tokens, if_pos hs.1, ih hs.2]
      simp

/-- A word ends at the first character that cannot be in it. -/
theorem tokens_word {w : List Char} {c : Char} (hne : w ≠ [])
    (hw : w.all isWordChar) (hc : isWordChar c = false)
    (rest : List Char) :
    tokens [] (w ++ c :: rest) =
      .word w :: (if c.isWhitespace then tokens [] rest
        else punctuator c :: tokens [] rest) := by
  rw [tokens_append hw, tokens]
  simp [hc, endWord, hne]

theorem isWordChar_toDigits (n : Nat) :
    (Nat.toDigits 10 n).all isWordChar := by
  rw [List.all_eq_true]
  intro c hc
  have hdigit : c.isDigit :=
    Nat.isDigit_of_mem_toDigits (by decide) (by decide) hc
  simp [isWordChar, Char.isAlphanum, hdigit]

/-- A decimal numeral is one word up to the punctuator behind it. -/
theorem tokens_toDigits {c : Char} (hc : isWordChar c = false)
    (hblank : c.isWhitespace = false) (n : Nat) (rest : List Char) :
    tokens [] (Nat.toDigits 10 n ++ c :: rest) =
      .word (Nat.toDigits 10 n) :: punctuator c :: tokens [] rest := by
  rw [tokens_word Nat.toDigits_ne_nil (isWordChar_toDigits n) hc, hblank]
  rfl

/-! ## Integer constants -/

/-- A leading zero makes a constant octal. -/
def constantValue (w : List Char) : Option Nat :=
  if w ≠ [] ∧ w.all Char.isDigit then
    if w.head? = some '0' then
      if w.all (· < '8') then some (Nat.ofDigitChars 8 w 0) else none
    else some (Nat.ofDigitChars 10 w 0)
  else none

theorem digitChar_ne_zero : ∀ n < 10, 0 < n → Nat.digitChar n ≠ '0' := by
  decide

theorem head?_toDigits {n : Nat} (hn : 0 < n) :
    (Nat.toDigits 10 n).head? ≠ some '0' := by
  induction n using Nat.strongRecOn with
  | _ n ih =>
      rw [Nat.toDigits_eq_if (by decide)]
      split
      · rename_i hlt
        simpa using digitChar_ne_zero n hlt hn
      · have hhead := ih (n / 10) (by omega) (by omega)
        rw [List.head?_append]
        cases hdigits : (Nat.toDigits 10 (n / 10)).head? with
        | none =>
            rw [List.head?_eq_none_iff] at hdigits
            exact absurd hdigits Nat.toDigits_ne_nil
        | some d =>
            rw [hdigits] at hhead
            simpa using hhead

@[simp] theorem constantValue_toDigits (n : Nat) :
    constantValue (Nat.toDigits 10 n) = some n := by
  have hall : (Nat.toDigits 10 n).all Char.isDigit := by
    rw [List.all_eq_true]
    intro c hc
    exact Nat.isDigit_of_mem_toDigits (by decide) (by decide) hc
  rw [constantValue, if_pos ⟨Nat.toDigits_ne_nil, hall⟩]
  rcases Nat.eq_zero_or_pos n with rfl | hn
  · simp [Nat.toDigits_zero, Nat.ofDigitChars]
  · rw [if_neg (head?_toDigits hn), Nat.ofDigitChars_ten_toDigits]

/-! ## Initializers -/

structure Item where
  designator : Option Nat
  value : Nat
deriving Repr, DecidableEq

/-- The initializers up to the closing brace, and what follows it; a comma
may stand behind the last one. -/
def items : List CToken → Option (List Item × List CToken)
  | .rbrace :: rest => some ([], rest)
  | .word v :: .rbrace :: rest => do
      let value ← constantValue v
      some ([⟨none, value⟩], rest)
  | .word v :: .comma :: rest => do
      let value ← constantValue v
      let (more, rest) ← items rest
      some (⟨none, value⟩ :: more, rest)
  | .lbrack :: .word n :: .rbrack :: .equals :: .word v :: .rbrace :: rest => do
      let position ← constantValue n
      let value ← constantValue v
      some ([⟨some position, value⟩], rest)
  | .lbrack :: .word n :: .rbrack :: .equals :: .word v :: .comma :: rest => do
      let position ← constantValue n
      let value ← constantValue v
      let (more, rest) ← items rest
      some (⟨some position, value⟩ :: more, rest)
  | _ => none

/-- The tokens of an initializer, its comma included. -/
def Item.tokens : Item → List CToken
  | ⟨none, value⟩ => [.word (Nat.toDigits 10 value), .comma]
  | ⟨some position, value⟩ =>
      [.lbrack, .word (Nat.toDigits 10 position), .rbrack, .equals,
        .word (Nat.toDigits 10 value), .comma]

theorem items_tokens (is : List Item) (rest : List CToken) :
    items (is.flatMap Item.tokens ++ .rbrace :: rest) = some (is, rest) := by
  induction is with
  | nil => rfl
  | cons i is ih =>
      obtain ⟨designator, value⟩ := i
      cases designator with
      | none => simp [Item.tokens, items, ih]
      | some position => simp [Item.tokens, items, ih]

/-! ## The array -/

/-- A designator sets the position, each value is stored there and advances
it by one; a position outside the array is an error. -/
def fill : List Item → Nat → List UInt8 → Option (List UInt8)
  | [], _, a => some a
  | i :: is, pos, a =>
      let p := i.designator.getD pos
      if p < a.length then
        fill is (p + 1) (a.set p (UInt8.ofNat i.value))
      else none

theorem fill_cons {i : Item} {pos : Nat} {a : List UInt8}
    (hlt : i.designator.getD pos < a.length) (is : List Item) :
    fill (i :: is) pos a =
      fill is (i.designator.getD pos + 1)
        (a.set (i.designator.getD pos) (UInt8.ofNat i.value)) := by
  rw [fill, if_pos hlt]

/-- Zeros written where the array is zero already only move the position. -/
theorem fill_replicate_zero {k : Nat} {a : List UInt8} {pos : Nat}
    (hlt : pos + k ≤ a.length)
    (hzero : ∀ j, pos ≤ j → j < pos + k → a[j]? = some 0) (is : List Item) :
    fill (List.replicate k ⟨none, 0⟩ ++ is) pos a = fill is (pos + k) a := by
  induction k generalizing pos with
  | zero => simp
  | succ k ih =>
      have hset : a.set pos (UInt8.ofNat 0) = a := by
        apply List.ext_getElem?
        intro j
        by_cases hj : pos = j
        · subst hj
          rw [List.getElem?_set_self (by omega), hzero pos (by omega) (by omega)]
          rfl
        · rw [List.getElem?_set_ne hj]
      rw [List.replicate_succ, List.cons_append, fill_cons (by simp; omega)]
      simp only [Option.getD_none]
      rw [hset, ih (by omega) (fun j hj hk => hzero j (by omega) (by omega))]
      congr 1
      omega

structure ArrayDefinition where
  name : List Char
  length : Nat
  items : List Item
deriving Repr, DecidableEq

/-- `unsigned char name[n] = { ... };` -/
def arrayDefinition : List CToken → Option (ArrayDefinition × List CToken)
  | .word q :: .word t :: .word name :: .lbrack :: .word n :: .rbrack ::
      .equals :: .lbrace :: rest =>
      if q = "unsigned".toList ∧ t = "char".toList then do
        let length ← constantValue n
        let (is, rest) ← items rest
        match rest with
        | .semicolon :: rest => some (⟨name, length, is⟩, rest)
        | _ => none
      else none
  | _ => none

def ArrayDefinition.bytes (d : ArrayDefinition) : Option (List UInt8) :=
  fill d.items 0 (List.replicate d.length 0)

structure ScalarDefinition where
  type : List Char
  name : List Char
  value : Nat
deriving Repr, DecidableEq

/-- `type name = n;` -/
def scalarDefinition : List CToken → Option (ScalarDefinition × List CToken)
  | .word t :: .word name :: .equals :: .word n :: .semicolon :: rest => do
      let value ← constantValue n
      some (⟨t, name, value⟩, rest)
  | _ => none

end Initializer

end Cs111Labs
