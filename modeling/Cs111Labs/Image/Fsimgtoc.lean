import Mathlib.Tactic
import Cs111Labs.Foundation.Initializer

/-!
# fsimgtoc

`print` writes a file system image as the initializer of a C array. Zero bytes
are skipped, so the position the next value would go to (`last`) falls behind
the byte just read (`n`); a gap is closed with explicit zeros when it is short
and with a designator when it is long.
-/

namespace Cs111Labs

namespace Image

open Initializer

/-! ## The conversion -/

def designatedInitializers : Bool := true

/-- `%ld`, `%lu` and `%d` of a number that is not negative. -/
def decimal (n : Nat) : List Char :=
  Nat.toDigits 10 n

/-- What is written to reach position `n` from position `last`. -/
def printGap (n last : Nat) : List Char :=
  if (last : Int) ≤ (n : Int) - 4 then '[' :: (decimal n ++ "]=".toList)
  else (List.replicate (n - last) "0,".toList).flatten

def printLoop : List UInt8 → Nat → Nat → Nat → List Char
  | [], _, _, _ => []
  | c :: cs, n, last, printed =>
      if c = 0 ∧ designatedInitializers then printLoop cs (n + 1) last printed
      else
        printGap n last ++ (decimal c.toNat ++ ',' ::
          ((if (printed + 1) % 19 = 0 then "\n".toList else []) ++
            printLoop cs (n + 1) (n + 1) (printed + 1)))

/-- `main` passes the length of the file as `size`. -/
def print (f : List UInt8) (size : Nat) : List Char :=
  "unsigned char ospfs_data[".toList ++ (decimal size ++
    ("] = \x7b\n".toList ++ (printLoop f 0 0 0 ++
      ("\x7d;\nuint32_t ospfs_length = ".toList ++
        (decimal size ++ ";\n".toList)))))

/-! ## What the text says -/

/-- The bytes and the length that a text defines under C's rules. -/
def imageOf (text : List Char) : Option (List UInt8 × Nat) := do
  let (data, rest) ← arrayDefinition (tokens [] text)
  let (length, rest) ← scalarDefinition rest
  if data.name = "ospfs_data".toList ∧ length.type = "uint32_t".toList ∧
      length.name = "ospfs_length".toList ∧ rest = [] then do
    let bytes ← data.bytes
    some (bytes, length.value % 2 ^ 32)
  else none

/-! ## The initializers printed -/

/-- The initializers that `printLoop` writes before the value at `n`. -/
def gapItems (n last : Nat) : List Item :=
  List.replicate (n - last) ⟨none, 0⟩

/-- The initializers that `printLoop` writes. -/
def printed : List UInt8 → Nat → Nat → List Item
  | [], _, _ => []
  | c :: cs, n, last =>
      if c = 0 ∧ designatedInitializers then printed cs (n + 1) last
      else if (last : Int) ≤ (n : Int) - 4 then
        ⟨some n, c.toNat⟩ :: printed cs (n + 1) (n + 1)
      else gapItems n last ++ ⟨none, c.toNat⟩ :: printed cs (n + 1) (n + 1)

theorem tokens_value (n : Nat) (rest : List Char) :
    tokens [] (decimal n ++ ',' :: rest) =
      Item.tokens ⟨none, n⟩ ++ tokens [] rest := by
  rw [decimal, tokens_toDigits (by decide) (by decide)]
  rfl

theorem tokens_index (n : Nat) (rest : List Char) :
    tokens [] (decimal n ++ ']' :: rest) =
      .word (decimal n) :: .rbrack :: tokens [] rest := by
  rw [decimal, tokens_toDigits (by decide) (by decide)]
  rfl

theorem tokens_designated (n v : Nat) (rest : List Char) :
    tokens [] ('[' :: (decimal n ++ "]=".toList) ++ (decimal v ++ ',' :: rest)) =
      Item.tokens ⟨some n, v⟩ ++ tokens [] rest := by
  have hopen (s : List Char) : tokens [] ('[' :: s) = .lbrack :: tokens [] s :=
    rfl
  have hequals (s : List Char) : tokens [] ('=' :: s) = .equals :: tokens [] s :=
    rfl
  have htext : '[' :: (decimal n ++ "]=".toList) ++ (decimal v ++ ',' :: rest) =
      '[' :: (decimal n ++ ']' :: '=' :: (decimal v ++ ',' :: rest)) := by
    simp
  rw [htext, hopen, tokens_index, hequals, tokens_value]
  rfl

theorem tokens_zeros (k : Nat) (rest : List Char) :
    tokens [] ((List.replicate k "0,".toList).flatten ++ rest) =
      (List.replicate k (⟨none, 0⟩ : Item)).flatMap Item.tokens ++
        tokens [] rest := by
  induction k with
  | zero => rfl
  | succ k ih =>
      have hzero (s : List Char) : tokens [] ('0' :: ',' :: s) =
          Item.tokens ⟨none, 0⟩ ++ tokens [] s := rfl
      simp only [List.replicate_succ, List.flatten_cons, List.flatMap_cons,
        List.append_assoc]
      rw [← ih]
      exact hzero _

/-- The text of the loop is the text of its initializers. -/
theorem tokens_printLoop (f : List UInt8) (n last count : Nat)
    (rest : List Char) :
    tokens [] (printLoop f n last count ++ rest) =
      (printed f n last).flatMap Item.tokens ++ tokens [] rest := by
  induction f generalizing n last count with
  | nil => rfl
  | cons c cs ih =>
      rw [printLoop, printed]
      split
      · exact ih ..
      · have hline (s : List Char) :
            tokens [] ((if (count + 1) % 19 = 0 then "\n".toList else []) ++ s) =
              tokens [] s := by
          split
          · rfl
          · rfl
        rw [printGap]
        split
        · simp only [List.append_assoc, List.cons_append, List.flatMap_cons]
          have := tokens_designated n c.toNat
            ((if (count + 1) % 19 = 0 then "\n".toList else []) ++
              (printLoop cs (n + 1) (n + 1) (count + 1) ++ rest))
          simp only [List.append_assoc, List.cons_append] at this
          rw [this, hline, ih]
        · simp only [List.append_assoc, List.cons_append, List.flatMap_append,
            List.flatMap_cons]
          rw [tokens_zeros, tokens_value, hline, ih, gapItems]

/-! ## The array it fills -/

/-- The loop stands at byte `n` of `done ++ rest` with the array filled up to
`last` and zero from there on. -/
theorem fill_printed (f done : List UInt8) (n last : Nat)
    (hdone : done.length = n) (hlast : last ≤ n)
    (hzero : ∀ j, last ≤ j → j < n → done[j]? = some 0) :
    fill (printed f n last) last (done ++ List.replicate f.length 0) =
      some (done ++ f) := by
  induction f generalizing done n last with
  | nil => simp [printed, fill]
  | cons c cs ih =>
      have hstore : (done ++ List.replicate (c :: cs).length 0).set n c =
          done ++ [c] ++ List.replicate cs.length 0 := by
        rw [List.set_append_right _ _ (by omega), ← hdone]
        simp [List.replicate_succ]
      have hnext : fill (printed cs (n + 1) (n + 1)) (n + 1)
          (done ++ [c] ++ List.replicate cs.length 0) =
            some (done ++ c :: cs) := by
        rw [ih (done ++ [c]) (n + 1) (n + 1) (by simp [hdone]) (by omega)
          (fun j _ _ => by omega)]
        simp
      have hlength : n < (done ++ List.replicate (c :: cs).length 0).length := by
        simp
        omega
      rw [printed]
      split
      · rename_i hskip
        have hrest : done ++ List.replicate (c :: cs).length 0 =
            done ++ [0] ++ List.replicate cs.length 0 := by
          simp [List.replicate_succ]
        rw [hrest, ih (done ++ [0]) (n + 1) last (by simp [hdone]) (by omega)]
        · simp [hskip.1]
        · intro j hj hlt
          rcases Nat.lt_or_ge j n with hjn | hjn
          · rw [List.getElem?_append_left (by omega)]
            exact hzero j hj hjn
          · obtain rfl : j = done.length := by omega
            simp
      · split
        · rw [fill_cons (by simpa using hlength)]
          simp only [Option.getD_some, UInt8.ofNat_toNat]
          rw [hstore, hnext]
        · rw [gapItems, fill_replicate_zero (by omega), 
            show last + (n - last) = n by omega, fill_cons (by simpa using hlength)]
          · simp only [Option.getD_none, UInt8.ofNat_toNat]
            rw [hstore, hnext]
          · intro j hj hlt
            rw [List.getElem?_append_left (by omega)]
            exact hzero j hj (by omega)

example : printed [0, 0, 0, 0, 7, 0, 0, 9] 0 0 =
    [⟨some 4, 7⟩, ⟨none, 0⟩, ⟨none, 0⟩, ⟨none, 9⟩] := by decide

/-! ## Nothing is lost -/

theorem tokens_heading (rest : List Char) :
    tokens [] ("unsigned char ospfs_data[".toList ++ rest) =
      .word "unsigned".toList :: .word "char".toList ::
        .word "ospfs_data".toList :: .lbrack :: tokens [] rest := by
  have htext : "unsigned char ospfs_data[".toList ++ rest =
      "unsigned".toList ++ ' ' :: ("char".toList ++ ' ' ::
        ("ospfs_data".toList ++ '[' :: rest)) := by
    simp
  rw [htext, tokens_word (by simp) rfl rfl, if_pos (by decide),
    tokens_word (by simp) rfl rfl, if_pos (by decide),
    tokens_word (by simp) rfl rfl, if_neg (by decide)]
  rfl

theorem tokens_size (size : Nat) (rest : List Char) :
    tokens [] (decimal size ++ ("] = \x7b\n".toList ++ rest)) =
      .word (decimal size) :: .rbrack :: .equals :: .lbrace :: tokens [] rest :=
  tokens_index size (" = \x7b\n".toList ++ rest)

theorem tokens_closing (rest : List Char) :
    tokens [] ("\x7d;\nuint32_t ospfs_length = ".toList ++ rest) =
      .rbrace :: .semicolon :: .word "uint32_t".toList ::
        .word "ospfs_length".toList :: .equals :: tokens [] rest := by
  have htext : "\x7d;\nuint32_t ospfs_length = ".toList ++ rest =
      "\x7d;\n".toList ++ ("uint32_t".toList ++ ' ' ::
        ("ospfs_length".toList ++ ' ' :: ("= ".toList ++ rest))) := by
    simp
  have hopen (s : List Char) : tokens [] ("\x7d;\n".toList ++ s) =
      .rbrace :: .semicolon :: tokens [] s := rfl
  rw [htext, hopen,
    tokens_word (by simp) rfl rfl, if_pos (by decide),
    tokens_word (by simp) rfl rfl, if_pos (by decide)]
  rfl

theorem tokens_length (size : Nat) :
    tokens [] (decimal size ++ ";\n".toList) =
      .word (decimal size) :: .semicolon :: [] := by
  rw [show ";\n".toList = ';' :: ['\n'] by rfl, decimal,
    tokens_toDigits (by decide) (by decide)]
  rfl

theorem tokens_print (f : List UInt8) (size : Nat) :
    tokens [] (print f size) =
      .word "unsigned".toList :: .word "char".toList ::
      .word "ospfs_data".toList :: .lbrack :: .word (decimal size) ::
      .rbrack :: .equals :: .lbrace ::
      ((printed f 0 0).flatMap Item.tokens ++ .rbrace :: .semicolon ::
        .word "uint32_t".toList :: .word "ospfs_length".toList :: .equals ::
        .word (decimal size) :: .semicolon :: []) := by
  unfold print
  rw [tokens_heading, tokens_size, tokens_printLoop, tokens_closing,
    tokens_length]

theorem arrayDefinition_items {q t name : List Char} (n : Nat) (is : List Item)
    (rest : List CToken) (hq : q = "unsigned".toList) (ht : t = "char".toList) :
    arrayDefinition (.word q :: .word t :: .word name :: .lbrack ::
        .word (decimal n) :: .rbrack :: .equals :: .lbrace ::
        (is.flatMap Item.tokens ++ .rbrace :: .semicolon :: rest)) =
      some (⟨name, n, is⟩, rest) := by
  rw [arrayDefinition, if_pos ⟨hq, ht⟩, decimal, constantValue_toDigits,
    items_tokens]
  rfl

theorem scalarDefinition_decimal (t name : List Char) (n : Nat)
    (rest : List CToken) :
    scalarDefinition (.word t :: .word name :: .equals :: .word (decimal n) ::
        .semicolon :: rest) = some (⟨t, name, n⟩, rest) := by
  rw [scalarDefinition, decimal, constantValue_toDigits]
  rfl

/-- The text printed for a file defines its bytes and its length. -/
theorem imageOf_print (f : List UInt8) :
    imageOf (print f f.length) = some (f, f.length % 2 ^ 32) := by
  have hfill : (ArrayDefinition.bytes
      ⟨"ospfs_data".toList, f.length, printed f 0 0⟩) = some f :=
    fill_printed f [] 0 0 rfl (by omega) (fun j _ _ => by omega)
  rw [imageOf, tokens_print, arrayDefinition_items _ _ _ rfl rfl,
    Option.bind_eq_bind, Option.bind_some]
  simp only
  rw [scalarDefinition_decimal, Option.bind_eq_bind, Option.bind_some]
  simp only
  rw [if_pos ⟨trivial, trivial, trivial, trivial⟩, hfill]
  rfl

end Image

end Cs111Labs
