import Cs111Labs.Peer.Writescan
import Mathlib.Data.Nat.Digits.Lemmas

/-!
# What is written is scanned

Each conversion is undone by its scan, and its text contains nothing that would
end the scan early or let it go on.
-/

namespace Cs111Labs.Peer

variable {s rest format : List UInt8} {b : UInt8} {left : Int} {len : Nat}
  {values : List Value}

theorem forall_byte {P : UInt8 → Prop} (h : ∀ n < 256, P (UInt8.ofNat n)) (c : UInt8) :
    P c := by
  have hc := h c.toNat c.toNat_lt
  simpa using hc

/-! ## Quoting -/

/-- A byte is sent as it is, and then it does not end a string, or as its two digits. -/
theorem quoted_byte (c : UInt8) : (isPlain c = true → isspace c = false ∧ c ≠ percent) ∧
    isxdigit (hexDigit (c / 16)) = true ∧ isxdigit (hexDigit (c &&& 15)) = true ∧
      xvalue (hexDigit (c / 16)) * 16 + xvalue (hexDigit (c &&& 15)) = c :=
  forall_byte (P := fun c => (isPlain c = true → isspace c = false ∧ c ≠ percent) ∧
      isxdigit (hexDigit (c / 16)) = true ∧ isxdigit (hexDigit (c &&& 15)) = true ∧
        xvalue (hexDigit (c / 16)) * 16 + xvalue (hexDigit (c &&& 15)) = c)
    (by decide +kernel) c

theorem isPlain_not_special (c : UInt8) :
    isPlain c = true → isspace c = false ∧ c ≠ percent := (quoted_byte c).1

theorem xvalue_hexDigit (c : UInt8) :
    isxdigit (hexDigit (c / 16)) = true ∧ isxdigit (hexDigit (c &&& 15)) = true ∧
      xvalue (hexDigit (c / 16)) * 16 + xvalue (hexDigit (c &&& 15)) = c := (quoted_byte c).2

theorem scanString_httpQuote (hs : (0 : UInt8) ∉ s) (hb : isspace b = true)
    (hleft : (httpQuote s).length < left) :
    scanString (httpQuote s ++ b :: rest) left =
      .found s ⟨b :: rest, left - (httpQuote s).length⟩ := by
  induction s generalizing left with
  | nil =>
      unfold scanString
      simp [httpQuote, hb]
  | cons c s ih =>
      have hc : c ≠ 0 := fun h => hs (by simp [h])
      have hs' : (0 : UInt8) ∉ s := fun h => hs (by simp [h])
      cases hplain : isPlain c with
      | true =>
          obtain ⟨hspace, hpercent⟩ := isPlain_not_special c hplain
          simp only [httpQuote, hc, hplain, if_false, if_true, List.length_cons,
            List.cons_append] at hleft ⊢
          have hne : left ≠ 0 := by omega
          unfold scanString
          simp only [hne, hspace, hpercent, Bool.false_eq_true, or_self, if_false]
          rw [ih hs' (by omega)]
          simp only [Scanned.store, Nat.cast_add, Nat.cast_one, Scanned.found.injEq,
            Cursor.mk.injEq, true_and]
          omega
      | false =>
          obtain ⟨hhigh, hlow, hvalue⟩ := xvalue_hexDigit c
          simp only [httpQuote, hc, hplain, Bool.false_eq_true, if_false,
            List.length_cons, List.cons_append] at hleft ⊢
          have hne : left ≠ 0 := by omega
          have hspace : isspace percent = false := by decide
          unfold scanString
          simp only [hne, hspace, hhigh, hlow, hvalue, Bool.false_eq_true, or_self,
            if_false, if_true]
          rw [ih hs' (by omega)]
          simp only [Scanned.store, Nat.cast_add, Nat.cast_one, Scanned.found.injEq,
            Cursor.mk.injEq, true_and]
          omega

/-- The text does not start with white space. -/
def Visible (text : List UInt8) : Prop :=
  ∃ b rest, text = b :: rest ∧ isspace b = false

theorem Visible.append {text : List UInt8} (h : Visible text) (rest : List UInt8) :
    Visible (text ++ rest) := by
  obtain ⟨b, tail, rfl, hb⟩ := h
  exact ⟨b, tail ++ rest, rfl, hb⟩

theorem Visible.dropWhile {text : List UInt8} (h : Visible text) :
    text.dropWhile isspace = text := by
  obtain ⟨b, tail, rfl, hb⟩ := h
  simp [hb]

theorem httpQuote_visible (hs : (0 : UInt8) ∉ s) (hne : s ≠ []) :
    Visible (httpQuote s) := by
  cases s with
  | nil => exact absurd rfl hne
  | cons c s =>
      have hc : c ≠ 0 := fun h => hs (by simp [h])
      cases hplain : isPlain c with
      | true =>
          exact ⟨c, httpQuote s, by simp [httpQuote, hc, hplain],
            (isPlain_not_special c hplain).1⟩
      | false =>
          refine ⟨percent, hexDigit (c / 16) :: hexDigit (c &&& 15) :: httpQuote s, ?_, ?_⟩
          · simp [httpQuote, hc, hplain]
          · decide

/-! ## Numbers -/

/-- The number that a list of digits stands for, behind `x`. -/
def readDigits (x : Nat) (ds : List Nat) : Nat := ds.foldl (fun v d => 10 * v + d) x

theorem le_readDigits (x : Nat) (ds : List Nat) : x ≤ readDigits x ds := by
  induction ds generalizing x with
  | nil => exact le_rfl
  | cons d ds ih =>
      have hstep : 10 * x + d ≤ readDigits x (d :: ds) := ih _
      omega

theorem readDigits_digits (n : Nat) : readDigits 0 (digits n).reverse = n := by
  unfold readDigits
  rw [List.foldl_reverse]
  unfold digits
  split
  · rename_i hzero
    simp [hzero]
  · have hof := Nat.ofDigits_digits 10 n
    rw [Nat.ofDigits_eq_foldr] at hof
    refine Eq.trans ?_ hof
    congr 1
    funext d v
    exact Nat.add_comm _ _

theorem digits_lt (n : Nat) : ∀ d ∈ digits n, d < 10 := by
  intro d hd
  unfold digits at hd
  split at hd
  · simp at hd
    omega
  · exact Nat.digits_lt_base (by decide) hd

theorem digits_ne_nil (n : Nat) : digits n ≠ [] := by
  unfold digits
  split
  · simp
  · exact Nat.digits_ne_nil_iff_ne_zero.mpr ‹_›

theorem isdigit_digit {d : Nat} (hd : d < 10) :
    isdigit (48 + d.toUInt8) = true ∧ (48 + d.toUInt8).toNat = 48 + d := by
  interval_cases d <;> decide

/-- The text of some digits. -/
def digitBytes (ds : List Nat) : List UInt8 := ds.map fun d => 48 + d.toUInt8

theorem scanOctet_digitBytes (rest : List UInt8) {ds : List Nat} (hds : ∀ d ∈ ds, d < 10) (x : Nat)
    (hb : isdigit b = false) (hvalue : readDigits x ds ≤ 255)
    (hleft : (ds.length : Int) ≤ left) :
    scanOctet (digitBytes ds ++ b :: rest) left x =
      .found (readDigits x ds) ⟨b :: rest, left - ds.length⟩ := by
  induction ds generalizing x left with
  | nil => simp [digitBytes, scanOctet, hb, readDigits]
  | cons d ds ih =>
      obtain ⟨hdigit, hnat⟩ := isdigit_digit (hds d (by simp))
      have hx := le_readDigits x (d :: ds)
      simp only [List.length_cons] at hleft
      have hgoes : left ≠ 0 ∧ isdigit (48 + d.toUInt8) = true ∧ (x : Int) ≤ 255 :=
        ⟨by omega, hdigit, by omega⟩
      have hneg : ¬ (x : Int) < 0 := by omega
      have hnext : 10 * (x : Int) + ((48 + d.toUInt8).toNat - 48) =
          ((10 * x + d : Nat) : Int) := by
        rw [hnat]
        omega
      simp only [digitBytes, List.map_cons, List.cons_append, scanOctet, if_pos hgoes,
        if_neg hneg, hnext]
      have hrest := ih (fun d hd => hds d (by simp [hd])) (10 * x + d) hvalue
        (show (ds.length : Int) ≤ left - 1 by omega)
      rw [digitBytes] at hrest
      rw [hrest, List.length_cons]
      simp [readDigits]
      omega

theorem scanDigits_digitBytes (rest : List UInt8) {ds : List Nat} (hds : ∀ d ∈ ds, d < 10) (x : Nat)
    (hb : isdigit b = false) (hvalue : (readDigits x ds : Int) + 10 ≤ intMax)
    (hleft : (ds.length : Int) ≤ left) :
    scanDigits (digitBytes ds ++ b :: rest) left x =
      .found (readDigits x ds) ⟨b :: rest, left - ds.length⟩ := by
  induction ds generalizing x left with
  | nil => simp [digitBytes, scanDigits, hb, readDigits]
  | cons d ds ih =>
      obtain ⟨hdigit, hnat⟩ := isdigit_digit (hds d (by simp))
      have hx : 10 * x + d ≤ readDigits x (d :: ds) := le_readDigits _ ds
      simp only [List.length_cons] at hleft
      have hroom : (x : Int) < (intMax - ((48 + d.toUInt8).toNat - 48)).tdiv 10 := by
        rw [hnat, Int.tdiv_eq_ediv_of_nonneg (by unfold intMax at *; omega)]
        unfold intMax at *
        omega
      have hgoes := And.intro (show left ≠ 0 by omega) (And.intro hdigit hroom)
      have hnext : 10 * (x : Int) + ((48 + d.toUInt8).toNat - 48) =
          ((10 * x + d : Nat) : Int) := by
        rw [hnat]
        omega
      simp only [digitBytes, List.map_cons, List.cons_append, scanDigits, if_pos hgoes,
        hnext]
      have hrest := ih (fun d hd => hds d (by simp [hd])) (10 * x + d) hvalue
        (show (ds.length : Int) ≤ left - 1 by omega)
      rw [digitBytes] at hrest
      rw [hrest, List.length_cons]
      simp [readDigits]
      omega

theorem decimal_eq (n : Nat) : decimal n = digitBytes (digits n).reverse := rfl

theorem length_decimal (n : Nat) : (decimal n).length = (digits n).length := by
  simp [decimal]

theorem decimal_cons (n : Nat) :
    ∃ c text, decimal n = c :: text ∧ isdigit c = true := by
  cases hdigits : (digits n).reverse with
  | nil => exact absurd (List.reverse_eq_nil_iff.mp hdigits) (digits_ne_nil n)
  | cons d ds =>
      have hd : d < 10 := digits_lt n d (by rw [← List.mem_reverse]; simp [hdigits])
      exact ⟨48 + d.toUInt8, digitBytes ds, by simp [decimal_eq, digitBytes, hdigits],
        (isdigit_digit hd).1⟩

theorem scanOctet_decimal (rest : List UInt8) {n : Nat} (hn : n ≤ 255) (hb : isdigit b = false)
    (hleft : ((decimal n).length : Int) ≤ left) :
    scanOctet (decimal n ++ b :: rest) left (-1) =
      .found n ⟨b :: rest, left - (decimal n).length⟩ := by
  have hlength := length_decimal n
  have hds : ∀ d ∈ (digits n).reverse, d < 10 := by simpa using digits_lt n
  have hvalue := readDigits_digits n
  have hscan := scanOctet_digitBytes rest hds 0 hb (by omega)
    (show ((digits n).reverse.length : Int) ≤ left by simp; omega)
  rw [hvalue, List.length_reverse, ← hlength, ← decimal_eq] at hscan
  obtain ⟨c, text, hdecimal, hdigit⟩ := decimal_cons n
  have hne : left ≠ 0 := by
    rw [hdecimal, List.length_cons] at hleft
    omega
  rw [← hscan, hdecimal]
  -- -1 stands for 0 at the first digit.
  simp [scanOctet, hdigit, hne]

theorem scanInt_decimal {n : Nat} (hn : (n : Int) + 10 ≤ intMax) (hb : isdigit b = false)
    (hleft : ((decimal n).length : Int) ≤ left) :
    scanInt ⟨decimal n ++ b :: rest, left⟩ =
      .found n ⟨b :: rest, left - (decimal n).length⟩ := by
  have hlength := length_decimal n
  have hds : ∀ d ∈ (digits n).reverse, d < 10 := by simpa using digits_lt n
  have hvalue := readDigits_digits n
  have hscan := scanDigits_digitBytes rest hds 0 hb (by omega)
    (show ((digits n).reverse.length : Int) ≤ left by simp; omega)
  rw [hvalue, List.length_reverse, ← hlength, ← decimal_eq] at hscan
  have hfirst : nextIs isdigit ⟨decimal n ++ b :: rest, left⟩ =
      .found true ⟨decimal n ++ b :: rest, left⟩ := by
    obtain ⟨c, text, hdecimal, hdigit⟩ := decimal_cons n
    rw [hdecimal] at hleft ⊢
    have hne : left ≠ 0 := by
      rw [List.length_cons] at hleft
      omega
    simp [nextIs, hne, hdigit]
  have hlast : nextIs isdigit ⟨b :: rest, left - (decimal n).length⟩ =
      .found false ⟨b :: rest, left - (decimal n).length⟩ := by
    unfold nextIs
    split <;> simp [hb]
  unfold scanInt
  simp only [hfirst]
  rw [show (0 : Int) = ((0 : Nat) : Int) from rfl, hscan]
  simp only [hlast]

theorem octet_le (a : BitVec 32) (i : Nat) : octet a i ≤ 255 := by
  unfold octet
  omega

theorem scanAddress_octet (n : Nat) (value : BitVec 32) {o : Nat} (ho : o ≤ 255)
    (hleft : ((decimal o).length : Int) < left) :
    scanAddress (n + 2) value ⟨decimal o ++ dot :: rest, left⟩ =
      scanAddress (n + 1) ((value <<< 8) + BitVec.ofNat 32 o)
        ⟨rest, left - (decimal o).length - 1⟩ := by
  have hscan := scanOctet_decimal rest (b := dot) ho (by decide)
    (show ((decimal o).length : Int) ≤ left by omega)
  have hrange : ¬ ((o : Int) < 0 ∨ 255 < (o : Int)) := by omega
  have hmore : left - (decimal o).length ≠ 0 := by omega
  rw [scanAddress]
  simp only [hscan, if_neg hrange, if_neg hmore, Nat.add_eq_zero_iff, one_ne_zero,
    and_false, if_false, if_true, BitVec.ofInt_natCast]

theorem scanAddress_last (value : BitVec 32) {o : Nat} (ho : o ≤ 255)
    (hb : isdigit b = false) (hleft : ((decimal o).length : Int) ≤ left) :
    scanAddress 1 value ⟨decimal o ++ b :: rest, left⟩ =
      .found ((value <<< 8) + BitVec.ofNat 32 o)
        ⟨b :: rest, left - (decimal o).length⟩ := by
  have hscan := scanOctet_decimal rest ho hb hleft
  have hrange : ¬ ((o : Int) < 0 ∨ 255 < (o : Int)) := by omega
  rw [scanAddress]
  simp only [hscan, if_neg hrange, if_true, BitVec.ofInt_natCast]

theorem octets_eq (a : BitVec 32) :
    (((((((0 : BitVec 32) <<< 8) + BitVec.ofNat 32 (octet a 0)) <<< 8) +
      BitVec.ofNat 32 (octet a 1)) <<< 8 + BitVec.ofNat 32 (octet a 2)) <<< 8) +
        BitVec.ofNat 32 (octet a 3) = a := by
  apply BitVec.eq_of_toNat_eq
  simp [octet, BitVec.toNat_add, BitVec.toNat_shiftLeft, Nat.shiftLeft_eq, Nat.shiftRight_eq_div_pow]
  omega

theorem length_inetNtoa (a : BitVec 32) :
    (inetNtoa a).length = (decimal (octet a 0)).length + (decimal (octet a 1)).length +
      (decimal (octet a 2)).length + (decimal (octet a 3)).length + 3 := by
  simp [inetNtoa]
  omega

theorem scanAddress_inetNtoa (a : BitVec 32) (hb : isdigit b = false)
    (hleft : ((inetNtoa a).length : Int) ≤ left) :
    scanAddress 4 0 ⟨inetNtoa a ++ b :: rest, left⟩ =
      .found a ⟨b :: rest, left - (inetNtoa a).length⟩ := by
  have hlength := length_inetNtoa a
  have htext : inetNtoa a ++ b :: rest =
      decimal (octet a 0) ++ dot :: (decimal (octet a 1) ++ dot ::
        (decimal (octet a 2) ++ dot :: (decimal (octet a 3) ++ b :: rest))) := by
    simp [inetNtoa]
  rw [htext, scanAddress_octet 2 0 (octet_le a 0) (by omega),
    scanAddress_octet 1 _ (octet_le a 1) (by omega),
    scanAddress_octet 0 _ (octet_le a 2) (by omega),
    scanAddress_last _ (octet_le a 3) hb (by omega), octets_eq, hlength]
  congr 2
  omega

/-! ## Messages -/

section Messages

theorem vsnscanf_literal (hb : isspace b = false) (hp : b ≠ percent) (hleft : left ≠ 0) :
    vsnscanfFrom len (b :: format) ⟨b :: rest, left⟩ values =
      vsnscanfFrom len format ⟨rest, left - 1⟩ values := by
  rw [vsnscanfFrom]
  · simp [hb, scanByte, nextIs, hleft]
  all_goals simp [hp]

theorem vsnscanf_literals {word : List UInt8}
    (hword : ∀ b ∈ word, isspace b = false ∧ b ≠ percent)
    (hleft : (word.length : Int) ≤ left) :
    vsnscanfFrom len (word ++ format) ⟨word ++ rest, left⟩ values =
      vsnscanfFrom len format ⟨rest, left - word.length⟩ values := by
  induction word generalizing left with
  | nil => simp
  | cons c word ih =>
      obtain ⟨hspace, hpercent⟩ := hword c (by simp)
      rw [List.length_cons] at hleft ⊢
      rw [List.cons_append, List.cons_append, vsnscanf_literal hspace hpercent (by omega),
        ih (fun b hb => hword b (by simp [hb])) (by omega)]
      congr 2
      omega

theorem vsnscanf_space (hformat : format.dropWhile isspace = format)
    (hrest : Visible rest) (hleft : left ≠ 0) :
    vsnscanfFrom len (32 :: format) ⟨32 :: rest, left⟩ values =
      vsnscanfFrom len format ⟨rest, left - 1⟩ values := by
  obtain ⟨b, tail, rfl, hb⟩ := hrest
  have hspace : isspace 32 = true := by decide
  rw [vsnscanfFrom]
  · simp [hspace, scanSpace, scanByte, nextIs, skipSpace, hleft, hb, hformat]
  all_goals
    intro _ h
    exact absurd h (by decide)

theorem vsnscanf_newline (hleft : left = 1) :
    vsnscanfFrom len [newline] ⟨newline :: rest, left⟩ values = some (0, values) := by
  subst hleft
  have hspace : isspace newline = true := by decide
  have hskip : skipSpace rest 0 = .found () ⟨rest, 0⟩ := by
    cases rest <;> simp [skipSpace]
  rw [vsnscanfFrom]
  · simp [hspace, scanSpace, scanByte, nextIs, hskip, vsnscanfFrom]
  all_goals simp [newline]

theorem vsnscanf_string (hs : (0 : UInt8) ∉ s) (hb : isspace b = true)
    (hleft : (httpQuote s).length < left) :
    vsnscanfFrom len (percent :: letterS :: format)
        ⟨httpQuote s ++ b :: rest, left⟩ values =
      vsnscanfFrom len format ⟨b :: rest, left - (httpQuote s).length⟩
        (values ++ [Value.string s]) := by
  refine (vsnscanfFrom.eq_2 len _ values format).trans ?_
  rw [scanString_httpQuote hs hb hleft]

theorem vsnscanf_address (a : BitVec 32) (hb : isdigit b = false)
    (hleft : ((inetNtoa a).length : Int) ≤ left) :
    vsnscanfFrom len (percent :: letterI :: format)
        ⟨inetNtoa a ++ b :: rest, left⟩ values =
      vsnscanfFrom len format ⟨b :: rest, left - (inetNtoa a).length⟩
        (values ++ [Value.address a]) := by
  refine (vsnscanfFrom.eq_3 len _ values format).trans ?_
  rw [scanAddress_inetNtoa a hb hleft]

theorem vsnscanf_integer {n : Nat} (hn : (n : Int) + 10 ≤ intMax)
    (hb : isdigit b = false) (hleft : ((decimal n).length : Int) ≤ left) :
    vsnscanfFrom len (percent :: letterD :: format)
        ⟨decimal n ++ b :: rest, left⟩ values =
      vsnscanfFrom len format ⟨b :: rest, left - (decimal n).length⟩
        (values ++ [Value.integer n]) := by
  refine (vsnscanfFrom.eq_4 len _ values format).trans ?_
  rw [scanInt_decimal hn hb hleft]

/-- The bytes of a format that stand for themselves. -/
def Literal (word : List UInt8) : Prop :=
  ∀ b ∈ word, isspace b = false ∧ b ≠ percent

variable {word : List UInt8}

theorem Literal.visible (h : Literal word) (hne : word ≠ []) : Visible word := by
  obtain ⟨b, tail, rfl⟩ := List.exists_cons_of_ne_nil hne
  exact ⟨b, tail, rfl, (h b (by simp)).1⟩

theorem vsnscanf_word (hword : Literal word) (hs : (0 : UInt8) ∉ s) (hne : s ≠ [])
    (hlen : len = word.length + (httpQuote s).length + 2) (beyond : List UInt8) :
    vsnscanf (word ++ 32 :: (httpQuote s ++ newline :: beyond)) len
        (word ++ 32 :: percent :: letterS :: [newline]) =
      some (0, [.string s]) := by
  have hquote := httpQuote_visible hs hne
  unfold vsnscanf
  rw [vsnscanf_literals hword (by omega),
    vsnscanf_space rfl (hquote.append _) (by omega),
    vsnscanf_string hs (by decide) (by omega), vsnscanf_newline (by omega)]
  rfl

theorem vsnscanf_words (hword : Literal word) {word' : List UInt8}
    (hword' : Literal word') (hs : (0 : UInt8) ∉ s) (hne : s ≠ []) (hne' : word' ≠ [])
    (hlen : len = word.length + (httpQuote s).length + word'.length + 3)
    (beyond : List UInt8) :
    vsnscanf (word ++ 32 :: (httpQuote s ++ 32 :: (word' ++ newline :: beyond))) len
        (word ++ 32 :: percent :: letterS :: 32 :: (word' ++ [newline])) =
      some (0, [.string s]) := by
  have hquote := httpQuote_visible hs hne
  have hvisible := hword'.visible hne'
  unfold vsnscanf
  rw [vsnscanf_literals hword (by omega),
    vsnscanf_space rfl (hquote.append _) (by omega),
    vsnscanf_string hs (by decide) (by omega),
    vsnscanf_space (hvisible.append _).dropWhile (hvisible.append _) (by omega),
    vsnscanf_literals hword' (by omega), vsnscanf_newline (by omega)]
  rfl

theorem isPlain_of_isxdigit {c : UInt8} (h : isxdigit c = true) : isPlain c = true := by
  simp only [isxdigit, isPlain, isalnum, Bool.or_eq_true, Bool.and_eq_true,
    decide_eq_true_eq] at h ⊢
  rcases h with (hdigit | ⟨hfirst, hlast⟩) | ⟨hfirst, hlast⟩
  · exact .inl (.inl (.inl hdigit))
  · exact .inl (.inl (.inr ⟨hfirst, UInt8.le_trans hlast (by decide)⟩))
  · exact .inl (.inr ⟨hfirst, UInt8.le_trans hlast (by decide)⟩)

theorem not_isspace_of_isxdigit (c : UInt8) (h : isxdigit c = true) : isspace c = false :=
  (isPlain_not_special c (isPlain_of_isxdigit h)).1

theorem not_isspace_of_isdigit (c : UInt8) (h : isdigit c = true) : isspace c = false :=
  not_isspace_of_isxdigit c (by rw [isxdigit, h, Bool.true_or, Bool.true_or])

theorem inetNtoa_visible (a : BitVec 32) : Visible (inetNtoa a) := by
  obtain ⟨c, text, hdecimal, hdigit⟩ := decimal_cons (octet a 0)
  have hfirst : Visible (decimal (octet a 0)) :=
    ⟨c, text, hdecimal, not_isspace_of_isdigit c hdigit⟩
  exact hfirst.append _

theorem vsnscanf_endpoint (hword : Literal word) (hs : (0 : UInt8) ∉ s) (hne : s ≠ [])
    (a : BitVec 32) {p : Nat} (hp : (p : Int) + 10 ≤ intMax)
    (hlen : len = word.length + (httpQuote s).length + (inetNtoa a).length +
      (decimal p).length + 4) (beyond : List UInt8) :
    vsnscanf (word ++ 32 :: (httpQuote s ++ 32 ::
          (inetNtoa a ++ 58 :: (decimal p ++ newline :: beyond)))) len
        (word ++ 32 :: percent :: letterS :: 32 :: percent :: letterI :: 58 ::
          percent :: letterD :: [newline]) =
      some (0, [.string s, .address a, .integer p]) := by
  have hquote := httpQuote_visible hs hne
  have haddress := inetNtoa_visible a
  unfold vsnscanf
  rw [vsnscanf_literals hword (by omega),
    vsnscanf_space rfl (hquote.append _) (by omega),
    vsnscanf_string hs (by decide) (by omega),
    vsnscanf_space rfl (haddress.append _) (by omega),
    vsnscanf_address a (by decide) (by omega),
    vsnscanf_literal (by decide) (by decide) (by omega),
    vsnscanf_integer hp (by decide) (by omega), vsnscanf_newline (by omega)]
  rfl

end Messages

/-! ## The round trip -/

/-- What was written completely is the command string. -/
theorem writeAll_eq {answers : List (Answer Nat)} {buf out : List UInt8}
    (h : writeAll answers buf = some (0, out)) : out = buf := by
  induction answers generalizing buf out with
  | nil =>
      cases buf with
      | nil => simpa [writeAll, eq_comm] using h
      | cons b buf => simp [writeAll] at h
  | cons answer answers ih =>
      cases buf with
      | nil => simpa [writeAll, eq_comm] using h
      | cons b buf =>
          cases answer with
          | again => exact ih h
          | failed => simp [writeAll] at h
          | moved amt =>
              simp only [writeAll] at h
              split at h
              · simp at h
              · obtain ⟨⟨ret, rest⟩, hrest, heq⟩ := Option.map_eq_some_iff.mp h
                obtain ⟨rfl, rfl⟩ := Prod.mk.inj heq
                rw [ih hrest, List.take_append_drop]

/-- The messages between peers and tracker, with their arguments. -/
inductive Message (s : List UInt8) (a : BitVec 32) (p : Nat) :
    List UInt8 → List Value → Prop
  | haveFile : Message s a p (ascii "HAVE %s\n") [.string s]
  | wantFile : Message s a p (ascii "WANT %s\n") [.string s]
  | getFile : Message s a p (ascii "GET %s OSP2P\n") [.string s]
  | addr : Message s a p (ascii "ADDR %s %I:%d\n")
      [.string s, .address a, .integer p]

theorem literal_of_decide {word : List UInt8}
    (h : word.all (fun b => !isspace b && b ≠ percent) = true) : Literal word := by
  intro b hb
  simpa using List.all_eq_true.mp h b hb

/-- Whatever memory follows, the message is scanned with what it was written from. -/
theorem vsnscanf_osp2pWritef {s : List UInt8} (hne : s ≠ []) (hs : (0 : UInt8) ∉ s)
    (a : BitVec 32) {p : Nat} (hp : 1 ≤ p ∧ p ≤ 65535) {format : List UInt8}
    {values : List Value} (hmessage : Message s a p format values)
    {answers : List (Answer Nat)} {out : List UInt8}
    (hout : osp2pWritef answers format values = some (0, out)) (beyond : List UInt8) :
    vsnscanf (out ++ beyond) out.length format = some (0, values) := by
  obtain ⟨buf, hcommand, hwritten⟩ := Option.bind_eq_some_iff.mp hout
  obtain rfl := writeAll_eq hwritten
  cases hmessage with
  | haveFile =>
      have htext : command (ascii "HAVE %s\n") [.string s] =
          some (ascii "HAVE" ++ 32 :: (httpQuote s ++ [newline])) := rfl
      obtain rfl := Option.some.inj (htext.symm.trans hcommand)
      rw [List.append_assoc, List.cons_append, List.append_assoc]
      exact vsnscanf_word (literal_of_decide (by decide)) hs hne (by simp; omega) beyond
  | wantFile =>
      have htext : command (ascii "WANT %s\n") [.string s] =
          some (ascii "WANT" ++ 32 :: (httpQuote s ++ [newline])) := rfl
      obtain rfl := Option.some.inj (htext.symm.trans hcommand)
      rw [List.append_assoc, List.cons_append, List.append_assoc]
      exact vsnscanf_word (literal_of_decide (by decide)) hs hne (by simp; omega) beyond
  | getFile =>
      have htext : command (ascii "GET %s OSP2P\n") [.string s] =
          some (ascii "GET" ++ 32 :: (httpQuote s ++ 32 :: (ascii "OSP2P" ++ [newline]))) :=
        rfl
      obtain rfl := Option.some.inj (htext.symm.trans hcommand)
      rw [List.append_assoc, List.cons_append, List.append_assoc, List.cons_append,
        List.append_assoc]
      exact vsnscanf_words (literal_of_decide (by decide)) (literal_of_decide (by decide))
        hs hne (by decide) (by simp; omega) beyond
  | addr =>
      have htext : command (ascii "ADDR %s %I:%d\n") [.string s, .address a, .integer p] =
          some (ascii "ADDR" ++ 32 :: (httpQuote s ++ 32 ::
            (inetNtoa a ++ 58 :: (decimal p ++ [newline])))) := rfl
      obtain rfl := Option.some.inj (htext.symm.trans hcommand)
      rw [List.append_assoc, List.cons_append, List.append_assoc, List.cons_append,
        List.append_assoc, List.cons_append, List.append_assoc]
      exact vsnscanf_endpoint (literal_of_decide (by decide)) hs hne a
        (by unfold intMax; omega) (by simp; omega) beyond

theorem vsnscanf_osp2pWritef_get :
    osp2pWritef [.moved 3, .again, .moved 100] (ascii "GET %s OSP2P\n")
        [.string (ascii "a b%")] = some (0, ascii "GET a%20b%25 OSP2P\n") ∧
      vsnscanf (ascii "GET a%20b%25 OSP2P\n" ++ [52])
        (ascii "GET a%20b%25 OSP2P\n").length (ascii "GET %s OSP2P\n") =
          some (0, [.string (ascii "a b%")]) :=
  ⟨by decide, vsnscanf_osp2pWritef (by decide) (by decide) 0 (p := 1) (by decide)
    .getFile (show osp2pWritef [.moved 3, .again, .moved 100] _ _ = _ by decide) [52]⟩

end Cs111Labs.Peer
