import Mathlib.Tactic
import Mathlib.Data.Nat.Bitwise

/-!
# Byte-addressed memory

Words have 32 bits and are stored least significant byte first.  A change of
the memory is described by the set of addresses that it may touch.
-/

namespace Cs111Labs.Foundation

abbrev Memory := Nat → UInt8

namespace Memory

def load32 (m : Memory) (a : Nat) : Nat :=
  (m a).toNat + 256 * (m (a + 1)).toNat + 65536 * (m (a + 2)).toNat +
    16777216 * (m (a + 3)).toNat

def store32 (m : Memory) (a v : Nat) : Memory := fun i =>
  if a ≤ i ∧ i < a + 4 then UInt8.ofNat (v / 256 ^ (i - a)) else m i

/-- `memset` -/
def fill (m : Memory) (a n : Nat) (byte : UInt8) : Memory := fun i =>
  if a ≤ i ∧ i < a + n then byte else m i

/-- `memcpy` -/
def copy (m : Memory) (a : Nat) (bytes : List UInt8) : Memory := fun i =>
  if a ≤ i ∧ i < a + bytes.length then bytes.getD (i - a) 0 else m i

/-- The bytes from `a` on up to the first zero byte, of at most `limit`. -/
def cstring (m : Memory) : Nat → Nat → List UInt8
  | 0, _ => []
  | limit + 1, a => if m a = 0 then [] else m a :: cstring m limit (a + 1)

variable {m m' m'' : Memory} {a b n v k : Nat} {S T : Set Nat}

theorem load32_lt (m : Memory) (a : Nat) : load32 m a < 2 ^ 32 := by
  have h0 := (m a).toNat_lt
  have h1 := (m (a + 1)).toNat_lt
  have h2 := (m (a + 2)).toNat_lt
  have h3 := (m (a + 3)).toNat_lt
  unfold load32
  omega

theorem load32_congr (h : ∀ i < 4, m' (b + i) = m (a + i)) :
    load32 m' b = load32 m a := by
  have h0 := h 0 (by decide)
  have h1 := h 1 (by decide)
  have h2 := h 2 (by decide)
  have h3 := h 3 (by decide)
  simp only [Nat.add_zero] at h0
  simp only [load32, h0, h1, h2, h3]

/-- A word determines its bytes. -/
theorem eq_of_load32_eq (h : load32 m' b = load32 m a) (hk : k < 4) :
    m' (b + k) = m (a + k) := by
  have h0 := (m a).toNat_lt
  have h1 := (m (a + 1)).toNat_lt
  have h2 := (m (a + 2)).toNat_lt
  have h3 := (m (a + 3)).toNat_lt
  have h0' := (m' b).toNat_lt
  have h1' := (m' (b + 1)).toNat_lt
  have h2' := (m' (b + 2)).toNat_lt
  have h3' := (m' (b + 3)).toNat_lt
  unfold load32 at h
  apply UInt8.toNat_inj.1
  interval_cases k
  · change (m' b).toNat = (m a).toNat
    omega
  · omega
  · omega
  · omega

theorem cstring_congr {limit : Nat} (h : ∀ i < limit, m' (b + i) = m (a + i)) :
    cstring m' limit b = cstring m limit a := by
  induction limit generalizing a b with
  | zero => rfl
  | succ limit ih =>
      have hbyte := h 0 (Nat.succ_pos limit)
      simp only [Nat.add_zero] at hbyte
      have hrest := ih (a := a + 1) (b := b + 1) fun i hi => by
        rw [show b + 1 + i = b + (i + 1) by omega, show a + 1 + i = a + (i + 1) by omega]
        exact h (i + 1) (by omega)
      simp only [cstring, hbyte, hrest]

theorem load32_store32_same (m : Memory) (a v : Nat) :
    load32 (store32 m a v) a = v % 2 ^ 32 := by
  simp [load32, store32]
  omega

theorem store32_store32 (m : Memory) (a v w : Nat) :
    store32 (store32 m a v) a w = store32 m a w := by
  funext i
  unfold store32
  split_ifs <;> rfl

/-- The memory with these words. -/
def ofWords (word : Nat → Nat) : Memory := fun a =>
  UInt8.ofNat (word (a / 4) / 256 ^ (a % 4))

theorem load32_ofWords (word : Nat → Nat) (k : Nat) :
    load32 (ofWords word) (4 * k) = word k % 2 ^ 32 := by
  have hdiv : ∀ d < 4, (4 * k + d) / 4 = k ∧ (4 * k + d) % 4 = d := fun d hd => by omega
  have h0 := hdiv 0 (by decide)
  have h1 := hdiv 1 (by decide)
  have h2 := hdiv 2 (by decide)
  have h3 := hdiv 3 (by decide)
  rw [Nat.add_zero] at h0
  simp [load32, ofWords, h0, h1, h2, h3]
  omega

/-! ## Changes -/

/-- Only bytes at addresses in `S` differ. -/
def ChangesOnly (S : Set Nat) (m m' : Memory) : Prop := ∀ a, a ∉ S → m' a = m a

namespace ChangesOnly

theorem refl (m : Memory) : ChangesOnly S m m := fun _ _ => rfl

theorem mono (h : ChangesOnly S m m') (hsub : S ⊆ T) : ChangesOnly T m m' :=
  fun a ha => h a fun hS => ha (hsub hS)

theorem trans (h : ChangesOnly S m m') (h' : ChangesOnly S m' m'') :
    ChangesOnly S m m'' :=
  fun a ha => (h' a ha).trans (h a ha)

theorem load32 (h : ChangesOnly S m m') (hout : ∀ i < 4, a + i ∉ S) :
    load32 m' a = load32 m a :=
  load32_congr fun i hi => h (a + i) (hout i hi)

theorem cstring {limit : Nat} (h : ChangesOnly S m m')
    (hout : ∀ i < limit, a + i ∉ S) :
    cstring m' limit a = cstring m limit a :=
  cstring_congr fun i hi => h (a + i) (hout i hi)

end ChangesOnly

theorem store32_changesOnly (m : Memory) (a v : Nat) :
    ChangesOnly (Set.Ico a (a + 4)) m (store32 m a v) := by
  intro i hi
  exact if_neg hi

/-- A word that is stored again changes nothing. -/
theorem store32_load32 (m : Memory) (a : Nat) : store32 m a (load32 m a) = m := by
  funext i
  by_cases hi : i ∈ Set.Ico a (a + 4)
  · obtain ⟨hlo, hhi⟩ := Set.mem_Ico.1 hi
    have hload : load32 (store32 m a (load32 m a)) a = load32 m a :=
      (load32_store32_same m a _).trans (Nat.mod_eq_of_lt (load32_lt m a))
    have hbyte := eq_of_load32_eq hload (k := i - a) (by omega)
    rwa [show a + (i - a) = i by omega] at hbyte
  · exact store32_changesOnly m a _ i hi

theorem fill_changesOnly (m : Memory) (a n : Nat) (byte : UInt8) :
    ChangesOnly (Set.Ico a (a + n)) m (fill m a n byte) := by
  intro i hi
  exact if_neg hi

theorem fill_eq_self {byte : UInt8} (h : ∀ i ∈ Set.Ico a (a + n), m i = byte) :
    fill m a n byte = m := by
  funext i
  by_cases hi : i ∈ Set.Ico a (a + n)
  · exact (if_pos (Set.mem_Ico.1 hi)).trans (h i hi).symm
  · exact fill_changesOnly m a n byte i hi

theorem copy_changesOnly (m : Memory) (a : Nat) (bytes : List UInt8) :
    ChangesOnly (Set.Ico a (a + bytes.length)) m (copy m a bytes) := by
  intro i hi
  exact if_neg hi

theorem copy_nil (m : Memory) (a : Nat) : copy m a [] = m := by
  funext i
  apply if_neg
  rintro ⟨hle, hlt⟩
  exact absurd hlt (Nat.not_lt.2 hle)

/-- Bytes that are copied right behind others. -/
theorem copy_copy {xs ys : List UInt8} (h : b = a + xs.length) :
    copy (copy m a xs) b ys = copy m a (xs ++ ys) := by
  funext i
  simp only [copy, List.length_append, h]
  by_cases hys : a + xs.length ≤ i
  · by_cases hi : i < a + xs.length + ys.length
    · rw [if_pos ⟨hys, hi⟩, if_pos (by omega), List.getD_append_right _ _ _ _ (by omega),
        Nat.sub_sub]
    · rw [if_neg (by omega), if_neg (by omega), if_neg (by omega)]
  · rw [if_neg (by omega)]
    by_cases ha : a ≤ i
    · rw [if_pos (by omega), if_pos (by omega), List.getD_append _ _ _ _ (by omega)]
    · rw [if_neg (by omega), if_neg (by omega)]

theorem update_eq_copy (m : Memory) (a : Nat) (byte : UInt8) :
    Function.update m a byte = copy m a [byte] := by
  funext i
  rw [Function.update_apply, copy, List.length_singleton]
  by_cases hi : i = a
  · rw [if_pos hi, if_pos (by omega), hi, Nat.sub_self]
    rfl
  · rw [if_neg hi, if_neg (by omega)]

theorem load32_store32_of_disjoint (h : b + 4 ≤ a ∨ a + 4 ≤ b) :
    load32 (store32 m a v) b = load32 m b := by
  refine (store32_changesOnly m a v).load32 fun i hi hmem => ?_
  obtain ⟨hlo, hhi⟩ := Set.mem_Ico.1 hmem
  omega

theorem load32_eq_zero (hzero : ∀ i < 4, m (a + i) = 0) : load32 m a = 0 := by
  have h0 := hzero 0 (by decide)
  have h1 := hzero 1 (by decide)
  have h2 := hzero 2 (by decide)
  have h3 := hzero 3 (by decide)
  simp only [Nat.add_zero] at h0
  simp only [load32, h0, h1, h2, h3]
  rfl

theorem load32_fill_zero (h : a ≤ b) (h' : b + 4 ≤ a + n) :
    load32 (fill m a n 0) b = 0 :=
  load32_eq_zero fun _ _ => if_pos ⟨by omega, by omega⟩

theorem fill_changesOnly_sub (h : Set.Ico a (a + n) ⊆ S) (byte : UInt8) :
    ChangesOnly S m (fill m a n byte) :=
  (fill_changesOnly m a n byte).mono h

/-! ## C strings -/

theorem cstring_no_zero (limit : Nat) (a : Nat) : 0 ∉ cstring m limit a := by
  induction limit generalizing a with
  | zero => simp [cstring]
  | succ limit ih =>
      rw [cstring]
      split
      · simp
      · rename_i hbyte
        simpa [Ne.symm hbyte] using ih (a + 1)

theorem length_cstring_le (limit : Nat) (a : Nat) :
    (cstring m limit a).length ≤ limit := by
  induction limit generalizing a with
  | zero => simp [cstring]
  | succ limit ih =>
      rw [cstring]
      split
      · simp
      · simpa using ih (a + 1)

theorem cstring_eq {limit : Nat} {text : List UInt8} (hlimit : text.length < limit)
    (hzero : 0 ∉ text) (hbytes : ∀ i (hi : i < text.length), m (a + i) = text[i])
    (hend : m (a + text.length) = 0) : cstring m limit a = text := by
  induction text generalizing a limit with
  | nil =>
      cases limit with
      | zero => rfl
      | succ limit => simpa [cstring] using hend
  | cons byte text ih =>
      cases limit with
      | zero => simp at hlimit
      | succ limit =>
          have hfirst : m a = byte := hbytes 0 (Nat.succ_pos _)
          have hrest : cstring m limit (a + 1) = text := by
            refine ih (by simpa using hlimit) (fun h => hzero (by simp [h])) ?_ ?_
            · intro i hi
              have hnext := hbytes (i + 1) (by simpa using hi)
              rw [show a + (i + 1) = a + 1 + i by omega] at hnext
              simpa using hnext
            · rw [List.length_cons] at hend
              rwa [show a + (text.length + 1) = a + 1 + text.length by omega] at hend
          have hne : byte ≠ 0 := fun h => hzero (by simp [h])
          simp [cstring, hfirst, hne, hrest]

/-- `strncmp` of the bytes at `a` with all bytes of a text finds no difference. -/
def strncmpEq (m : Memory) (a : Nat) : List UInt8 → Bool
  | [] => true
  | byte :: text => m a = byte && strncmpEq m (a + 1) text

/-- The address of the first such byte in the string at `a`, whose end is within `limit`. -/
def strchr (m : Memory) (byte : UInt8) : Nat → Nat → Option Nat
  | 0, _ => none
  | limit + 1, a =>
      if m a = byte then some a
      else if m a = 0 then none
      else strchr m byte limit (a + 1)

/-- A text stands at `a`, with the zero byte after it. -/
structure StringAt (m : Memory) (a : Nat) (text : List UInt8) : Prop where
  nonzero : 0 ∉ text
  bytes : ∀ i (hi : i < text.length), m (a + i) = text[i]
  terminator : m (a + text.length) = 0

namespace StringAt

variable {byte : UInt8} {text rest : List UInt8}

theorem cstring_eq {limit : Nat} (h : StringAt m a text) (hlimit : text.length < limit) :
    Memory.cstring m limit a = text :=
  Memory.cstring_eq hlimit h.nonzero h.bytes h.terminator

theorem head (h : StringAt m a (byte :: text)) : m a = byte :=
  h.bytes 0 (Nat.succ_pos _)

theorem tail (h : StringAt m a (byte :: text)) : StringAt m (a + 1) text where
  nonzero hmem := h.nonzero (List.mem_cons_of_mem _ hmem)
  bytes i hi := by
    have hnext := h.bytes (i + 1) (Nat.succ_lt_succ hi)
    rw [Nat.add_assoc, Nat.add_comm 1 i]
    exact hnext
  terminator := by
    have hend := h.terminator
    rwa [List.length_cons, Nat.add_comm text.length, ← Nat.add_assoc] at hend

theorem of_append (h : StringAt m a (text ++ rest)) : StringAt m (a + text.length) rest := by
  induction text generalizing a with
  | nil => exact h
  | cons byte text ih =>
      have hrest := ih h.tail
      rwa [Nat.add_assoc, Nat.add_comm 1] at hrest

/-- The string that ends at a byte that is overwritten. -/
theorem cut (h : StringAt m a (text ++ byte :: rest)) :
    StringAt (copy m (a + text.length) [0]) a text where
  nonzero hmem := h.nonzero (List.mem_append_left _ hmem)
  bytes i hi := by
    rw [copy_changesOnly m _ [0] (a + i) (by simp only [Set.mem_Ico]; omega),
      h.bytes i (by simp only [List.length_append]; omega), List.getElem_append_left hi]
  terminator := by simp [copy]

theorem frame (h : StringAt m a text)
    (hsame : ∀ i ≤ text.length, m' (a + i) = m (a + i)) : StringAt m' a text where
  nonzero := h.nonzero
  bytes i hi := (hsame i hi.le).trans (h.bytes i hi)
  terminator := (hsame _ le_rfl).trans h.terminator

theorem strncmpEq_iff {start : List UInt8} (h : StringAt m a text) (hstart : 0 ∉ start) :
    strncmpEq m a start = true ↔ start <+: text := by
  induction start generalizing a text with
  | nil => simp [strncmpEq]
  | cons byte start ih =>
      rw [List.mem_cons, not_or] at hstart
      cases text with
      | nil =>
          have hend : m a = 0 := h.terminator
          simp [strncmpEq, hend, hstart.1]
      | cons first text =>
          rw [strncmpEq, h.head, Bool.and_eq_true, decide_eq_true_eq, ih h.tail hstart.2,
            List.cons_prefix_cons]
          exact and_congr_left fun _ => eq_comm

theorem strchr_none {limit : Nat} (h : StringAt m a text) (hpos : byte ≠ 0)
    (hmem : byte ∉ text) : strchr m byte limit a = none := by
  induction text generalizing a limit with
  | nil =>
      have hend : m a = 0 := h.terminator
      cases limit with
      | zero => rfl
      | succ limit => rw [strchr, hend, if_neg hpos.symm, if_pos rfl]
  | cons first text ih =>
      rw [List.mem_cons, not_or] at hmem
      have hfirst : first ≠ 0 := fun hzero => h.nonzero (hzero ▸ List.mem_cons_self)
      cases limit with
      | zero => rfl
      | succ limit =>
          rw [strchr, h.head, if_neg (Ne.symm hmem.1), if_neg hfirst]
          exact ih h.tail hmem.2

theorem strchr_some {limit : Nat} (h : StringAt m a (text ++ byte :: rest))
    (hmem : byte ∉ text) (hlimit : text.length < limit) :
    strchr m byte limit a = some (a + text.length) := by
  induction text generalizing a limit with
  | nil =>
      obtain ⟨limit, rfl⟩ := Nat.exists_eq_succ_of_ne_zero hlimit.ne'
      rw [strchr, h.head, if_pos rfl]
      rfl
  | cons first text ih =>
      rw [List.mem_cons, not_or] at hmem
      have hfirst : first ≠ 0 := fun hzero => h.nonzero (hzero ▸ List.mem_cons_self)
      obtain ⟨limit, rfl⟩ := Nat.exists_eq_succ_of_ne_zero (Nat.ne_zero_of_lt hlimit)
      rw [strchr, show m a = first from h.head, if_neg (Ne.symm hmem.1), if_neg hfirst,
        ih h.tail hmem.2 (Nat.lt_of_succ_lt_succ hlimit), List.length_cons, Nat.add_assoc,
        Nat.add_comm 1]

end StringAt

/-! ## Bits of a word -/

theorem testBit_one_shiftLeft (k j : Nat) :
    (1 <<< k).testBit j = decide (j = k) := by
  rw [Nat.one_shiftLeft, Nat.testBit_two_pow]
  exact decide_eq_decide.2 eq_comm

theorem testBit_or_shift (w k j : Nat) :
    (w ||| 1 <<< k).testBit j = (w.testBit j || decide (j = k)) := by
  rw [Nat.testBit_or, testBit_one_shiftLeft]

theorem testBit_and_not_shift {w : Nat} (hw : w < 2 ^ 32) (k j : Nat) :
    (w &&& (2 ^ 32 - 1 ^^^ 1 <<< k)).testBit j = (w.testBit j && decide (j ≠ k)) := by
  rw [Nat.testBit_and, Nat.testBit_xor, Nat.testBit_two_pow_sub_one,
    testBit_one_shiftLeft]
  cases hj : w.testBit j with
  | false => rfl
  | true =>
      have hlt : j < 32 := by
        by_contra hle
        rw [Nat.testBit_lt_two_pow (hw.trans_le (Nat.pow_le_pow_right (by decide)
          (not_lt.1 hle)))] at hj
        cases hj
      simp [hlt]

theorem or_shift_lt {w k : Nat} (hw : w < 2 ^ 32) (hk : k < 32) :
    w ||| 1 <<< k < 2 ^ 32 := by
  refine Nat.or_lt_two_pow hw ?_
  rw [Nat.one_shiftLeft]
  exact Nat.pow_lt_pow_right (by decide) hk

end Memory

end Cs111Labs.Foundation
