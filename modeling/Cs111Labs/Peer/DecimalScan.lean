import Cs111Labs.Peer.Writescan

/-!
# The range of `%d`

The loop of `%d` takes a digit while `value < (INT_MAX - digit)/10`.  The division
rounds down and the comparison is strict, so it stops 10 below `INT_MAX`.
-/

namespace Cs111Labs.Peer

variable {text rest : List UInt8} {c : UInt8} {left : Int} {v : Nat}

/-- The number that the digits stand for, behind `v`. -/
def valueFrom (v : Nat) (text : List UInt8) : Nat :=
  text.foldl (fun v c => 10 * v + (c.toNat - 48)) v

def decimalValue (text : List UInt8) : Nat := valueFrom 0 text

/-- Of the `k` bytes before `end_s` the first is no digit, if there is one. -/
def DigitsEnd (rest : List UInt8) (k : Nat) : Prop :=
  k = 0 ∨ ∃ b more, rest = b :: more ∧ isdigit b = false

/-- What the loop of `%d` computes, in its test and where it takes the digit. -/
def computed : List UInt8 → Int → Int → List Int
  | [], _, _ => []
  | c :: rest, left, value =>
      let digit : Int := c.toNat - 48
      if left ≠ 0 ∧ isdigit c = true then
        [digit, intMax - digit, (intMax - digit).tdiv 10] ++
          if value < (intMax - digit).tdiv 10 then
            [10 * value, 10 * value + digit] ++ computed rest (left - 1) (10 * value + digit)
          else []
      else []

/-- The digits give their number up to `INT_MAX` and are refused above it, and
nothing that is computed on the way is out of the range of an `int`. -/
def ScansExactly (text : List UInt8) : Prop :=
  ∀ rest k, DigitsEnd rest k →
    scanInt ⟨text ++ rest, text.length + k⟩ =
        (if (decimalValue text : Int) ≤ intMax then .found (decimalValue text) ⟨rest, k⟩
        else .mismatch) ∧
      ∀ x ∈ computed (text ++ rest) (text.length + k) 0, -2 ^ 31 ≤ x ∧ x ≤ intMax

/-! ## One digit -/

theorem isdigit_toNat (h : isdigit c = true) : 48 ≤ c.toNat ∧ c.toNat ≤ 57 := by
  simp only [isdigit, Bool.and_eq_true, decide_eq_true_eq, UInt8.le_iff_toNat_le] at h
  exact h

theorem takesDigit_iff (h : isdigit c = true) :
    (v : Int) < (intMax - (c.toNat - 48)).tdiv 10 ↔
      ((10 * v + (c.toNat - 48) : Nat) : Int) + 10 ≤ intMax := by
  obtain ⟨hlow, hhigh⟩ := isdigit_toNat h
  rw [Int.tdiv_eq_ediv_of_nonneg (by unfold intMax; omega)]
  unfold intMax
  omega

/-- The step of the loop, without the digit's code. -/
theorem scanDigits_cons (htakes : left ≠ 0 ∧ isdigit c = true ∧
      (v : Int) < (intMax - (c.toNat - 48)).tdiv 10) :
    scanDigits (c :: rest) left v =
      scanDigits rest (left - 1) ((10 * v + (c.toNat - 48) : Nat) : Int) := by
  have hlow := (isdigit_toNat htakes.2.1).1
  rw [scanDigits, if_pos htakes]
  congr 1
  omega

theorem le_valueFrom (v : Nat) (text : List UInt8) : v ≤ valueFrom v text := by
  induction text generalizing v with
  | nil => exact le_rfl
  | cons c text ih =>
      have hstep : 10 * v + (c.toNat - 48) ≤ valueFrom v (c :: text) := ih _
      omega

theorem computed_range {value x : Int} (hvalue : 0 ≤ value)
    (hx : x ∈ computed text left value) : -2 ^ 31 ≤ x ∧ x ≤ intMax := by
  induction text generalizing left value with
  | nil => cases hx
  | cons c text ih =>
      simp only [computed] at hx
      split_ifs at hx with hdigit htakes
      · obtain ⟨hlow, hhigh⟩ := isdigit_toNat hdigit.2
        have hdiv := Int.tdiv_eq_ediv_of_nonneg
          (show 0 ≤ intMax - ((c.toNat : Int) - 48) by unfold intMax; omega) (b := 10)
        rw [hdiv] at hx htakes
        have hnext : 0 ≤ 10 * value + ((c.toNat : Int) - 48) := by omega
        simp only [List.mem_append, List.mem_cons, List.not_mem_nil, or_false] at hx
        rcases hx with (rfl | rfl | rfl) | (rfl | rfl) | hx
        · unfold intMax
          omega
        · unfold intMax
          omega
        · unfold intMax
          omega
        · unfold intMax at *
          omega
        · unfold intMax at *
          omega
        · exact ih hnext hx
      · obtain ⟨hlow, hhigh⟩ := isdigit_toNat hdigit.2
        have hdiv := Int.tdiv_eq_ediv_of_nonneg
          (show 0 ≤ intMax - ((c.toNat : Int) - 48) by unfold intMax; omega) (b := 10)
        rw [hdiv] at hx
        simp only [List.append_nil, List.mem_cons, List.not_mem_nil, or_false] at hx
        rcases hx with rfl | rfl | rfl
        · unfold intMax
          omega
        · unfold intMax
          omega
        · unfold intMax
          omega
      · cases hx

/-! ## All digits -/

theorem nextIs_of_digitsEnd {k : Nat} (h : DigitsEnd rest k) :
    nextIs isdigit ⟨rest, k⟩ = .found false ⟨rest, k⟩ := by
  unfold nextIs
  rcases h with rfl | ⟨b, more, rfl, hb⟩
  · rfl
  · split
    · rfl
    · simp [hb]

theorem scanDigits_of_digitsEnd {k : Nat} (h : DigitsEnd rest k) (value : Int) :
    scanDigits rest k value = .found value ⟨rest, k⟩ := by
  rcases h with rfl | ⟨b, more, rfl, hb⟩
  · cases rest <;> simp [scanDigits]
  · simp [scanDigits, hb]

/-- The number is small enough for every digit of it. -/
theorem scanDigits_of_le {k : Nat} (hdigits : ∀ c ∈ text, isdigit c = true)
    (hend : DigitsEnd rest k) (hvalue : (valueFrom v text : Int) + 10 ≤ intMax) :
    scanDigits (text ++ rest) (text.length + k) v = .found (valueFrom v text) ⟨rest, k⟩ := by
  induction text generalizing v with
  | nil => simpa [valueFrom] using scanDigits_of_digitsEnd hend v
  | cons c text ih =>
      obtain ⟨hc, hdigits⟩ := List.forall_mem_cons.mp hdigits
      have hnext : 10 * v + (c.toNat - 48) ≤ valueFrom v (c :: text) := le_valueFrom _ text
      have htakes := (takesDigit_iff (v := v) hc).mpr (by omega)
      have hrest := ih (v := 10 * v + (c.toNat - 48)) hdigits hvalue
      have hlow := (isdigit_toNat hc).1
      have hleft : ((c :: text).length : Int) + k - 1 = text.length + k := by
        simp
        omega
      rw [List.cons_append, scanDigits_cons ⟨by omega, hc, htakes⟩, hleft, hrest]
      rfl

/-- The number is too large, so some digit of it is left. -/
theorem scanDigits_of_gt (rest : List UInt8) (k : Nat) (hne : text ≠ [])
    (hdigits : ∀ c ∈ text, isdigit c = true) (hvalue : intMax < (valueFrom v text : Int) + 10) :
    ∃ value c' more left', scanDigits (text ++ rest) (text.length + k) v =
      .found value ⟨c' :: more, left'⟩ ∧ isdigit c' = true ∧ left' ≠ 0 := by
  induction text generalizing v with
  | nil => exact absurd rfl hne
  | cons c text ih =>
      obtain ⟨hc, hdigits⟩ := List.forall_mem_cons.mp hdigits
      have hleft : ((c :: text).length : Int) + k - 1 = text.length + k := by
        simp
        omega
      by_cases htakes : (v : Int) < (intMax - (c.toNat - 48)).tdiv 10
      · have hsmall := (takesDigit_iff hc).mp htakes
        have hmore : text ≠ [] := by
          rintro rfl
          have hlarge : intMax < ((10 * v + (c.toNat - 48) : Nat) : Int) + 10 := hvalue
          omega
        obtain ⟨value, c', more, left', hscan, hresult⟩ := ih hmore hdigits hvalue
        refine ⟨value, c', more, left', ?_, hresult⟩
        rw [List.cons_append, scanDigits_cons ⟨by omega, hc, htakes⟩, hleft, hscan]
      · refine ⟨v, c, text ++ rest, (c :: text).length + k, ?_, hc, by omega⟩
        rw [List.cons_append, scanDigits, if_neg fun h => htakes h.2.2]

/-- The conversion is exact up to `INT_MAX - 10`. -/
theorem scanInt_digits {k : Nat} (hne : text ≠ []) (hdigits : ∀ c ∈ text, isdigit c = true)
    (hend : DigitsEnd rest k) :
    scanInt ⟨text ++ rest, text.length + k⟩ =
      if (decimalValue text : Int) + 10 ≤ intMax then .found (decimalValue text) ⟨rest, k⟩
      else .mismatch := by
  obtain ⟨c, text', rfl⟩ := List.exists_cons_of_ne_nil hne
  have hleft : ((c :: text').length : Int) + k ≠ 0 := by
    simp
    omega
  have hfirst : nextIs isdigit ⟨c :: text' ++ rest, (c :: text').length + k⟩ =
      .found true ⟨c :: text' ++ rest, (c :: text').length + k⟩ := by
    unfold nextIs
    rw [if_neg hleft, List.cons_append]
    simp [hdigits c (by simp)]
  unfold scanInt
  simp only [hfirst]
  split_ifs with hvalue
  · have hscan := scanDigits_of_le (v := 0) hdigits hend hvalue
    rw [Nat.cast_zero] at hscan
    simp only [hscan, nextIs_of_digitsEnd hend]
    rfl
  · obtain ⟨value, c', more, left', hscan, hc', hleft'⟩ :=
      scanDigits_of_gt (v := 0) rest k hne hdigits (not_le.mp hvalue)
    rw [Nat.cast_zero] at hscan
    simp only [hscan, nextIs, if_neg hleft', hc']

theorem scansExactly_iff (hne : text ≠ []) (hdigits : ∀ c ∈ text, isdigit c = true) :
    ScansExactly text ↔
      ¬ (intMax - 10 < decimalValue text ∧ (decimalValue text : Int) ≤ intMax) := by
  constructor
  · rintro h ⟨hlow, hhigh⟩
    have hscan := (h [] 0 (.inl rfl)).1
    rw [scanInt_digits hne hdigits (.inl rfl), if_neg (by omega), if_pos hhigh] at hscan
    cases hscan
  · intro h rest k hend
    refine ⟨?_, fun x hx => computed_range le_rfl hx⟩
    have hsame : (decimalValue text : Int) + 10 ≤ intMax ↔ (decimalValue text : Int) ≤ intMax := by
      omega
    rw [scanInt_digits hne hdigits hend]
    simp only [hsame]

theorem scansExactly_iff_port : ScansExactly (ascii "008080") :=
  (scansExactly_iff (by decide) (by decide +kernel)).mpr (by decide)

/-- `INT_MAX` itself is refused. -/
theorem intMax_not_scansExactly : ¬ ScansExactly (ascii "2147483647") := by
  intro h
  have hscan := (h [] 0 (.inl rfl)).1
  revert hscan
  decide

end Cs111Labs.Peer
