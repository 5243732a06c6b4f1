import Cs111Labs.Digest.Md5Context
import Cs111Labs.Peer.Writescan

/-!
# Digests as text

Each character of the text stands for the next few bits of the digest, the
lowest first.  The peer writes six bits a character, the image builder five.
-/

namespace Cs111Labs

namespace Digest

open Foundation
open Peer (ascii)

def chars64 : List UInt8 :=
  ascii "abcdefghijklmnopqrstuvwxyzABCDEFGHIJKLMNOPQRSTUVWXYZ0123456789_@"

def chars32 : List UInt8 := ascii "abcdefghijklmnopqrstuvwxyz234567"

/-- `val`, whose low bits are those of the digest from `bit` on. -/
def valAt (digest : List UInt8) (bit : Nat) : Nat :=
  let firstChar := bit / 8
  let val := (digest.getD firstChar 0).toNat >>> (bit % 8)
  if (firstChar + 1) * 8 < bit + 8 ∧ firstChar < 15 then
    val + (digest.getD (firstChar + 1) 0).toNat <<< (8 - bit % 8)
  else val

def finishText (allowAt : Bool) (digest : List UInt8) (bit : Nat) : List UInt8 :=
  if bit < 128 then
    let val := valAt digest bit
    if val &&& 0x3F = 0x3F ∧ !allowAt then
      chars64.getD (0x1F &&& 0x3F) 0 :: finishText allowAt digest (bit + 6 - 1)
    else chars64.getD (val &&& 0x3F) 0 :: finishText allowAt digest (bit + 6)
  else []
termination_by 128 - bit

/-- The state after the call, and the text. -/
def md5FinishText (pms : Md5State) (allowAt : Bool) : Md5State × List UInt8 :=
  let (pms, digest) := md5Finish pms
  (pms, finishText allowAt digest 0)

def finalText (digest : List UInt8) (bit : Nat) : List UInt8 :=
  if bit < 128 then
    chars32.getD (valAt digest bit &&& 0x1F) 0 :: finalText digest (bit + 5)
  else []
termination_by 128 - bit

/-- The context after the call, and the text without its zero byte. -/
def md5FinalText (hd : Md5Context) : Md5Context × List UInt8 :=
  let (hd, digest) := hd.md5Final
  (hd, finalText digest 0)

/-! ## Bits of a digest -/

section Bits

variable {digest digest' : List UInt8} {bit w : Nat}

/-- The digest as a number, lowest byte first. -/
def value (digest : List UInt8) : Nat := Nat.ofDigits 256 (digest.map UInt8.toNat)

theorem forall_mem_map_toNat (digest : List UInt8) : ∀ v ∈ digest.map UInt8.toNat, v < 256 := by
  intro v hv
  obtain ⟨byte, -, rfl⟩ := List.mem_map.1 hv
  exact byte.toNat_lt

theorem value_lt (hlength : digest.length = 16) : value digest < 2 ^ 128 := by
  have hlt := Nat.ofDigits_lt_base_pow_length (by decide) (forall_mem_map_toNat digest)
  rw [List.length_map, hlength] at hlt
  exact hlt

theorem value_injective (hlength : digest.length = digest'.length)
    (h : value digest = value digest') : digest = digest' := by
  have hdigits := Nat.ofDigits_inj_of_len_eq (by decide) (by
    rw [List.length_map, List.length_map, hlength]) (forall_mem_map_toNat digest)
    (forall_mem_map_toNat digest') h
  exact List.map_injective_iff.2 (fun _ _ => UInt8.toNat_inj.1) hdigits

theorem value_div (i : Nat) : value digest / 256 ^ i = value (digest.drop i) := by
  rw [value, Nat.ofDigits_div_pow_eq_ofDigits_drop i (by decide) _ (forall_mem_map_toNat digest),
    ← List.map_drop]
  rfl

/-- The byte and the next one, which is zero behind the digest. -/
theorem value_drop (hlength : digest.length = 16) {i : Nat} (hi : i < 16) :
    ∃ more, value (digest.drop i) = (digest.getD i 0).toNat +
      256 * ((digest.getD (i + 1) 0).toNat + 256 * more) := by
  rw [List.drop_eq_getElem_cons (by omega), List.getD_eq_getElem _ _ (by omega)]
  by_cases hnext : i + 1 < 16
  · rw [List.drop_eq_getElem_cons (by omega), List.getD_eq_getElem _ _ (by omega)]
    refine ⟨value (digest.drop (i + 1 + 1)), ?_⟩
    simp only [value, List.map_cons, Nat.ofDigits_cons]
  · rw [List.drop_eq_nil_of_le (by omega), List.getD_eq_default _ _ (by omega)]
    refine ⟨0, ?_⟩
    simp [value, Nat.ofDigits_cons]

/-- At most 8 bits are those of the number. -/
theorem valAt_mod (hlength : digest.length = 16) (hbit : bit < 128) (hw : w ≤ 8) :
    valAt digest bit % 2 ^ w = value digest / 2 ^ bit % 2 ^ w := by
  obtain ⟨more, hmore⟩ := value_drop hlength (show bit / 8 < 16 by omega)
  have hvalue : value digest / 2 ^ bit = value (digest.drop (bit / 8)) / 2 ^ (bit % 8) := by
    rw [← value_div, Nat.div_div_eq_div_mul, show 256 = 2 ^ 8 from rfl, ← Nat.pow_mul,
      ← Nat.pow_add, Nat.div_add_mod]
  have hbyte := (digest.getD (bit / 8) 0).toNat_lt
  have hnone : bit / 8 = 15 → (digest.getD (bit / 8 + 1) 0).toNat = 0 := by
    intro h
    rw [List.getD_eq_default _ _ (by omega)]
    rfl
  have hval : ∃ k, value digest / 2 ^ bit = valAt digest bit + 256 * k := by
    rw [hvalue, hmore, valAt, Nat.shiftRight_eq_div_pow, Nat.shiftLeft_eq]
    have hmod := Nat.mod_lt bit (show 0 < 8 by decide)
    have hsplit := Nat.div_add_mod bit 8
    generalize (digest.getD (bit / 8) 0).toNat = low at hbyte ⊢
    generalize (digest.getD (bit / 8 + 1) 0).toNat = high at hnone ⊢
    by_cases hshift : bit % 8 = 0
    · rw [hshift, if_neg (by omega), Nat.pow_zero, Nat.div_one, Nat.div_one]
      exact ⟨high + 256 * more, rfl⟩
    · refine ⟨2 ^ (8 - bit % 8) * more, ?_⟩
      have hif : (if (bit / 8 + 1) * 8 < bit + 8 ∧ bit / 8 < 15 then
          low / 2 ^ (bit % 8) + high * 2 ^ (8 - bit % 8) else low / 2 ^ (bit % 8)) =
          low / 2 ^ (bit % 8) + high * 2 ^ (8 - bit % 8) := by
        split_ifs with hcond
        · rfl
        · rw [hnone (by omega), Nat.zero_mul, Nat.add_zero]
      rw [hif]
      clear hif hsplit hnone
      generalize bit % 8 = shift at hmod hshift
      interval_cases shift <;> omega
  obtain ⟨k, hk⟩ := hval
  obtain ⟨c, hc⟩ := Nat.pow_dvd_pow 2 hw
  rw [hk, show 256 = 2 ^ 8 from rfl, hc, Nat.mul_assoc, Nat.add_mul_mod_self_left]

end Bits

/-! ## Groups of bits -/

section Groups

variable {digest digest' chars : List UInt8} {v v' w n : Nat}

/-- The characters of the groups of `w` bits, the lowest first. -/
def groups (w n : Nat) (chars : List UInt8) (v : Nat) : List UInt8 :=
  (List.range n).map fun k => chars.getD (v / 2 ^ (w * k) % 2 ^ w) 0

theorem length_groups : (groups w n chars v).length = n := by
  rw [groups, List.length_map, List.length_range]

theorem groups_mem (hchars : chars.length = 2 ^ w) {char : UInt8}
    (hchar : char ∈ groups w n chars v) : char ∈ chars := by
  obtain ⟨k, -, rfl⟩ := List.mem_map.1 hchar
  rw [List.getD_eq_getElem _ _ (by rw [hchars]; exact Nat.mod_lt _ (Nat.two_pow_pos w))]
  exact List.getElem_mem _

/-- Numbers with the same groups of bits are equal as far as the groups go. -/
theorem mod_eq_of_groups (h : ∀ k < n, v / 2 ^ (w * k) % 2 ^ w = v' / 2 ^ (w * k) % 2 ^ w) :
    v % 2 ^ (w * n) = v' % 2 ^ (w * n) := by
  induction n with
  | zero => rw [Nat.mul_zero, Nat.pow_zero, Nat.mod_one, Nat.mod_one]
  | succ n ih =>
      have hlow := ih fun k hk => h k (by omega)
      rw [Nat.mul_succ, Nat.pow_add, Nat.mod_mul, Nat.mod_mul, hlow, h n (Nat.lt_succ_self n)]

theorem groups_injective (hnodup : chars.Nodup) (hchars : chars.length = 2 ^ w)
    (hv : v < 2 ^ (w * n)) (hv' : v' < 2 ^ (w * n))
    (h : groups w n chars v = groups w n chars v') : v = v' := by
  have hgroup : ∀ k < n, v / 2 ^ (w * k) % 2 ^ w = v' / 2 ^ (w * k) % 2 ^ w := by
    intro k hk
    have hchar := List.map_inj_left.1 h k (List.mem_range.2 hk)
    have hlt : ∀ x, x % 2 ^ w < chars.length := by
      intro x
      rw [hchars]
      exact Nat.mod_lt x (Nat.two_pow_pos w)
    rw [List.getD_eq_getElem _ _ (hlt _), List.getD_eq_getElem _ _ (hlt _)] at hchar
    exact (hnodup.getElem_inj_iff).1 hchar
  have hmod := mod_eq_of_groups hgroup
  rwa [Nat.mod_eq_of_lt hv, Nat.mod_eq_of_lt hv'] at hmod

/-- A loop that takes `w` bits in each pass. -/
theorem loop_eq {f : Nat → List UInt8} {g : Nat → UInt8}
    (hf : ∀ bit, f bit = if bit < 128 then g bit :: f (bit + w) else [])
    (hn : ∀ k, w * k < 128 ↔ k < n) : f 0 = (List.range n).map fun k => g (w * k) := by
  have hfrom : ∀ j ≤ n, f (w * (n - j)) = (List.range' (n - j) j).map fun k => g (w * k) := by
    intro j
    induction j with
    | zero =>
        intro hj
        rw [hf, if_neg (by rw [hn]; omega)]
        rfl
    | succ j ih =>
        intro hj
        have hsucc : n - j = n - (j + 1) + 1 := by omega
        have hrest := ih (by omega)
        rw [hsucc, Nat.mul_succ] at hrest
        rw [hf, if_pos (by rw [hn]; omega), hrest, List.range'_succ, List.map_cons]
  have hall := hfrom n (Nat.le_refl n)
  rwa [Nat.sub_self, Nat.mul_zero, ← List.range_eq_range'] at hall

/-- A text of groups. -/
theorem loop_eq_groups {f : Nat → List UInt8} (hlength : digest.length = 16) (hw : w ≤ 8)
    (hf : ∀ bit, f bit =
      if bit < 128 then chars.getD (valAt digest bit % 2 ^ w) 0 :: f (bit + w) else [])
    (hn : ∀ k, w * k < 128 ↔ k < n) : f 0 = groups w n chars (value digest) := by
  rw [loop_eq hf hn, groups]
  apply List.map_congr_left
  intro k hk
  rw [valAt_mod hlength ((hn k).2 (List.mem_range.1 hk)) hw]

end Groups

/-! ## The texts -/

section Texts

variable {digest digest' : List UInt8}

theorem nodup_chars64 : chars64.Nodup := by decide

theorem nodup_chars32 : chars32.Nodup := by decide

theorem length_chars64 : chars64.length = 2 ^ 6 := by decide

theorem length_chars32 : chars32.length = 2 ^ 5 := by decide

theorem finalText_eq (hlength : digest.length = 16) :
    finalText digest 0 = groups 5 26 chars32 (value digest) := by
  apply loop_eq_groups hlength (by decide)
  · intro bit
    rw [finalText, show 0x1F = 2 ^ 5 - 1 from rfl, Nat.and_two_pow_sub_one_eq_mod]
  · intro k
    omega

theorem and_mask6 (x : Nat) : x &&& 0x3F = x % 2 ^ 6 := Nat.and_two_pow_sub_one_eq_mod x 6

theorem finishText_eq (hlength : digest.length = 16) :
    finishText true digest 0 = groups 6 22 chars64 (value digest) := by
  apply loop_eq_groups hlength (by decide)
  · intro bit
    rw [finishText, ← and_mask6]
    simp
  · intro k
    omega

theorem finalText_injective (hlength : digest.length = 16) (hlength' : digest'.length = 16)
    (h : finalText digest 0 = finalText digest' 0) : digest = digest' := by
  rw [finalText_eq hlength, finalText_eq hlength'] at h
  have hvalue := groups_injective nodup_chars32 length_chars32
    ((value_lt hlength).trans (by decide)) ((value_lt hlength').trans (by decide)) h
  exact value_injective (hlength.trans hlength'.symm) hvalue

theorem finishText_injective (hlength : digest.length = 16) (hlength' : digest'.length = 16)
    (h : finishText true digest 0 = finishText true digest' 0) : digest = digest' := by
  rw [finishText_eq hlength, finishText_eq hlength'] at h
  have hvalue := groups_injective nodup_chars64 length_chars64
    ((value_lt hlength).trans (by decide)) ((value_lt hlength').trans (by decide)) h
  exact value_injective (hlength.trans hlength'.symm) hvalue

/-- Without `@` each pass takes five or six bits. -/
theorem finishText_bounds (allowAt : Bool) (digest : List UInt8) (bit : Nat) :
    128 - bit ≤ 6 * (finishText allowAt digest bit).length ∧
      5 * (finishText allowAt digest bit).length ≤ 132 - bit := by
  fun_induction finishText allowAt digest bit with
  | case1 bit hbit val hall ih =>
      rw [List.length_cons]
      omega
  | case2 bit hbit val hnot ih =>
      rw [List.length_cons]
      omega
  | case3 bit hbit =>
      rw [List.length_nil]
      omega

/-- The character `@` is the last one. -/
theorem chars64_getD {v : Nat} (hv : v < 64) :
    chars64.getD v 0 ∈ chars64 ∧ (v ≠ 63 → chars64.getD v 0 ≠ 64) := by
  have hlast : chars64.get ⟨63, by decide⟩ = 64 := by decide
  rw [List.getD_eq_getElem _ _ (by rw [length_chars64]; exact hv)]
  refine ⟨List.getElem_mem _, fun hne hat => hne ?_⟩
  rw [← hlast] at hat
  exact nodup_chars64.getElem_inj_iff.1 hat

theorem finishText_mem (allowAt : Bool) (digest : List UInt8) (bit : Nat) :
    ∀ char ∈ finishText allowAt digest bit, char ∈ chars64 ∧ (allowAt = false → char ≠ 64) := by
  fun_induction finishText allowAt digest bit with
  | case1 bit hbit val hall ih =>
      intro char hchar
      rcases List.mem_cons.1 hchar with rfl | hmem
      · have hval := chars64_getD (v := 31) (by decide)
        exact ⟨hval.1, fun _ => hval.2 (by decide)⟩
      · exact ih char hmem
  | case2 bit hbit val hnot ih =>
      intro char hchar
      rcases List.mem_cons.1 hchar with rfl | hmem
      · have hval := chars64_getD (v := val &&& 0x3F) (by
          rw [and_mask6]
          exact Nat.mod_lt _ (by decide))
        refine ⟨hval.1, fun hat => hval.2 ?_⟩
        intro hmax
        exact hnot ⟨hmax, by rw [hat]; rfl⟩
      · exact ih char hmem
  | case3 bit hbit =>
      intro char hchar
      exact absurd hchar List.not_mem_nil

end Texts

/-! ## What is compared -/

section Compared

variable {pms pms' : Md5State} {message message' : List UInt8}

theorem length_md5 (message : List UInt8) : (md5 message).length = 16 :=
  Md5Context.length_bytes _

theorem md5FinishText_eq (h : Holds pms message) (allowAt : Bool) :
    (md5FinishText pms allowAt).2 = finishText allowAt (md5 message) 0 := by
  rw [md5FinishText, ← (md5Finish_eq h).1]

/-- The length that the header promises, no `@` where it is not allowed, and with `@` texts
that agree on no other digests. -/
theorem md5FinishText_spec (buf buf' : Memory) (parts parts' : List (List UInt8))
    (hparts : ∀ part ∈ parts, part.length < 2 ^ 28)
    (hparts' : ∀ part ∈ parts', part.length < 2 ^ 28) :
    let text := fun allowAt => (md5FinishText (parts.foldl md5Append (md5Init buf)) allowAt).2
    let text' := (md5FinishText (parts'.foldl md5Append (md5Init buf')) true).2
    (∀ allowAt, 22 ≤ (text allowAt).length ∧ (text allowAt).length ≤ 26 ∧
      ∀ char ∈ text allowAt, char ∈ chars64 ∧ (allowAt = false → char ≠ 64)) ∧
      (text true).length = 22 ∧
      (text true = text' ↔ md5 parts.flatten = md5 parts'.flatten) := by
  have h := ((holds_md5Init buf).appendParts hparts).1
  have h' := ((holds_md5Init buf').appendParts hparts').1
  rw [List.nil_append] at h h'
  intro text text'
  have htext : ∀ allowAt, text allowAt = finishText allowAt (md5 parts.flatten) 0 :=
    md5FinishText_eq h
  have htext' : text' = finishText true (md5 parts'.flatten) 0 := md5FinishText_eq h' true
  refine ⟨fun allowAt => ?_, ?_, ?_⟩
  · have hbounds := finishText_bounds allowAt (md5 parts.flatten) 0
    rw [htext]
    exact ⟨by omega, by omega, finishText_mem allowAt _ 0⟩
  · rw [htext, finishText_eq (length_md5 _), length_groups]
  · rw [htext, htext']
    constructor
    · exact finishText_injective (length_md5 _) (length_md5 _)
    · intro heq
      rw [heq]

theorem md5FinishText_spec_abc :
    let text := fun allowAt =>
      (md5FinishText ([[97], [98, 99]].foldl md5Append (md5Init fun _ => 0)) allowAt).2
    let text' := (md5FinishText ([[97, 98, 99]].foldl md5Append (md5Init fun _ => 1)) true).2
    (∀ allowAt, 22 ≤ (text allowAt).length ∧ (text allowAt).length ≤ 26 ∧
      ∀ char ∈ text allowAt, char ∈ chars64 ∧ (allowAt = false → char ≠ 64)) ∧
      (text true).length = 22 ∧ (text true = text' ↔ md5 [97, 98, 99] = md5 [97, 98, 99]) :=
  md5FinishText_spec _ _ [[97], [98, 99]] [[97, 98, 99]] (by simp) (by simp)

/-- The texts of the image builder: 26 characters, which agree on no other digests. -/
theorem md5FinalText_spec (hd hd' : Md5Context) :
    (md5FinalText hd).2.length = 26 ∧ (∀ char ∈ (md5FinalText hd).2, char ∈ chars32) ∧
      ((md5FinalText hd).2 = (md5FinalText hd').2 ↔ hd.md5Final.2 = hd'.md5Final.2) := by
  have hlength : ∀ hd : Md5Context, hd.md5Final.2.length = 16 := by
    intro hd
    rw [Md5Context.md5Final, List.length_map, List.length_range]
  have htext : (md5FinalText hd).2 = groups 5 26 chars32 (value hd.md5Final.2) :=
    finalText_eq (hlength hd)
  refine ⟨?_, ?_, ?_⟩
  · rw [htext, length_groups]
  · intro char hchar
    rw [htext] at hchar
    exact groups_mem length_chars32 hchar
  · constructor
    · exact finalText_injective (hlength hd) (hlength hd')
    · intro heq
      exact congrArg (finalText · 0) heq

end Compared

end Digest

end Cs111Labs
