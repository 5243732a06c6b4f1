import Cs111Labs.Digest.Md5
import Cs111Labs.Foundation.Memory

/-!
# The digest of the peer

`md5_append` takes a message in parts, with a buffer for what does not fill a
block yet, and `md5_finish` appends the padding in the same way.  However a
message is cut into parts, the digest is that of the whole message.
-/

namespace Cs111Labs

namespace Digest

open Foundation

/-- `buf` has 64 cells. -/
structure Md5State where
  count0 : BitVec 32
  count1 : BitVec 32
  abcd : Registers
  buf : Memory

def md5Init (buf : Memory) : Md5State where
  count0 := 0
  count1 := 0
  abcd := ⟨0x67452301, tMask ^^^ 0x10325476, tMask ^^^ 0x67452301, 0x10325476⟩
  buf := buf

def bufBytes (buf : Memory) : List UInt8 := (List.range 64).map buf

/-- The loop over the full blocks, and the partial block behind them. -/
def appendBlocks (p : List UInt8) (pms : Md5State) : Md5State :=
  if 64 ≤ p.length then
    appendBlocks (p.drop 64) { pms with abcd := md5Process pms.abcd (p.take 64) }
  else if p = [] then pms
  else { pms with buf := pms.buf.copy 0 p }
termination_by p.length
decreasing_by
  rw [List.length_drop]
  omega

/-- The message length is updated. -/
def addLength (pms : Md5State) (nbytes : BitVec 32) : Md5State :=
  let nbits := nbytes <<< 3
  let count1 := pms.count1 + nbytes.sshiftRight 29
  let count0 := pms.count0 + nbits
  { pms with count0 := count0, count1 := if count0 < nbits then count1 + 1 else count1 }

def md5Append (pms : Md5State) (data : List UInt8) : Md5State :=
  let offset := ((pms.count0 >>> 3) &&& 63).toNat
  if (BitVec.ofNat 32 data.length).toInt ≤ 0 then pms
  else
    let pms := addLength pms (BitVec.ofNat 32 data.length)
    if offset ≠ 0 then
      let copy := if 64 < offset + data.length then 64 - offset else data.length
      let pms := { pms with buf := pms.buf.copy offset (data.take copy) }
      if offset + copy < 64 then pms
      else
        appendBlocks (data.drop copy)
          { pms with abcd := md5Process pms.abcd (bufBytes pms.buf) }
    else appendBlocks data pms

def pad : List UInt8 := 128 :: List.replicate 63 0

def countByte (pms : Md5State) (i : Nat) : UInt8 :=
  UInt8.ofBitVec (((if i / 4 = 0 then pms.count0 else pms.count1) >>> (8 * (i % 4))).setWidth 8)

/-- The state after the call, and the digest. -/
def md5Finish (pms : Md5State) : Md5State × List UInt8 :=
  let data := (List.range 8).map (countByte pms)
  let pms := md5Append pms (pad.take (((55 - (pms.count0 >>> 3)) &&& 63) + 1).toNat)
  let pms := md5Append pms data
  (pms, pms.abcd.bytes)

/-! ## Counting bits -/

section Counting

variable {pms : Md5State} {length : Nat}

/-- The two words hold the number of bits. -/
def Counts (pms : Md5State) (length : Nat) : Prop :=
  pms.count0.toNat + 2 ^ 32 * pms.count1.toNat = 8 * length % 2 ^ 64

theorem Counts.count0 (h : Counts pms length) : pms.count0.toNat = 8 * length % 2 ^ 32 := by
  have hlt := pms.count0.isLt
  unfold Counts at h
  omega

theorem Counts.offset (h : Counts pms length) :
    ((pms.count0 >>> 3) &&& 63).toNat = length % 64 := by
  have hmask : ((63 : BitVec 32)).toNat = 2 ^ 6 - 1 := rfl
  rw [BitVec.toNat_and, hmask, Nat.and_two_pow_sub_one_eq_mod, BitVec.toNat_ushiftRight,
    Nat.shiftRight_eq_div_pow, h.count0]
  omega

theorem Counts.addLength {n : Nat} (h : Counts pms length) (hn : n < 2 ^ 28) :
    Counts (addLength pms (BitVec.ofNat 32 n)) (length + n) := by
  have hbits : (BitVec.ofNat 32 n <<< 3).toNat = 8 * n := by
    rw [BitVec.toNat_shiftLeft, BitVec.toNat_ofNat, Nat.shiftLeft_eq]
    omega
  have hhigh : (BitVec.ofNat 32 n).sshiftRight 29 = 0 := by
    have hmsb : (BitVec.ofNat 32 n).msb = false := by
      rw [BitVec.msb_eq_decide, BitVec.toNat_ofNat]
      simp
      omega
    apply BitVec.eq_of_toNat_eq
    rw [BitVec.toNat_sshiftRight_of_msb_false hmsb, BitVec.toNat_ofNat,
      Nat.shiftRight_eq_div_pow]
    simp
    omega
  have hlow : (pms.count0 + BitVec.ofNat 32 n <<< 3).toNat =
      (pms.count0.toNat + 8 * n) % 2 ^ 32 := by
    rw [BitVec.toNat_add, hbits]
  have h0 := pms.count0.isLt
  have h1 := pms.count1.isLt
  unfold Counts at h
  unfold Counts Digest.addLength
  simp only [hlow]
  split_ifs with hcarry
  all_goals
    rw [BitVec.lt_def, hlow, hbits] at hcarry
    simp [hhigh, BitVec.toNat_add]
    omega

end Counting

/-! ## The buffer -/

/-- The buffer holds what is behind the whole blocks of a message. -/
def Buffers (buf : Memory) (message : List UInt8) : Prop :=
  ∀ i < message.length % 64, buf i = (Blocks.rest 64 message).getD i 0

/-- What the state of a message holds. -/
structure Holds (pms : Md5State) (message : List UInt8) : Prop where
  counts : Counts pms message.length
  abcd : pms.abcd = Blocks.absorb md5Process 64 initial message
  buf : Buffers pms.buf message

theorem buffers_of_aligned (buf : Memory) {message : List UInt8} (h : message.length % 64 = 0) :
    Buffers buf message := by
  intro i hi
  rw [h] at hi
  exact absurd hi (Nat.not_lt_zero i)

theorem holds_md5Init (buf : Memory) : Holds (md5Init buf) [] where
  counts := rfl
  abcd := rfl
  buf := buffers_of_aligned buf rfl

section Buffer

variable {buf : Memory} {pms : Md5State} {message data : List UInt8}

theorem appendBlocks_eq (p : List UInt8) (pms : Md5State) :
    appendBlocks p pms = { pms with
      abcd := Blocks.absorb md5Process 64 pms.abcd p
      buf := pms.buf.copy 0 (Blocks.rest 64 p) } := by
  induction hlength : p.length using Nat.strongRecOn generalizing p pms with
  | _ n ih =>
      rw [appendBlocks]
      by_cases hfull : 64 ≤ p.length
      · rw [if_pos hfull, Blocks.absorb_of_le (by decide) hfull,
          Blocks.rest_of_le (by decide) hfull]
        apply ih (p.drop 64).length
        · rw [List.length_drop]
          omega
        · rfl
      · rw [if_neg hfull, Blocks.absorb_of_lt (by omega), Blocks.rest_of_lt (by omega)]
        by_cases hp : p = []
        · rw [if_pos hp, hp, Memory.copy_nil]
        · rw [if_neg hp]

/-- The buffer with more bytes behind what it holds. -/
theorem Buffers.copy (h : Buffers buf message) {i : Nat}
    (hi : i < message.length % 64 + data.length) :
    buf.copy (message.length % 64) data i = (Blocks.rest 64 message ++ data).getD i 0 := by
  have hlength := Blocks.length_rest 64 message
  by_cases hlt : i < message.length % 64
  · rw [Memory.copy, if_neg (by omega), h i hlt, List.getD_append _ _ _ _ (by omega)]
  · rw [Memory.copy, if_pos ⟨by omega, hi⟩, List.getD_append_right _ _ _ _ (by omega), hlength]

/-- The full buffer is the next block of the message. -/
theorem Buffers.bufBytes (h : Buffers buf message)
    (hfull : message.length % 64 + data.length = 64) :
    bufBytes (buf.copy (message.length % 64) data) = Blocks.rest 64 message ++ data := by
  have hlength := Blocks.length_rest 64 message
  unfold Digest.bufBytes
  apply List.ext_getElem
  · rw [List.length_map, List.length_range, List.length_append, hlength, hfull]
  · intro i hi hi'
    rw [List.getElem_map, List.getElem_range, h.copy (by
      rw [List.length_append] at hi'
      omega), List.getD_eq_getElem _ _ hi']

/-- Bytes that do not fill the buffer. -/
theorem Buffers.append (h : Buffers buf message)
    (hroom : message.length % 64 + data.length < 64) :
    Buffers (buf.copy (message.length % 64) data) (message ++ data) := by
  have hlength := Blocks.length_rest 64 message
  intro i hi
  rw [Blocks.rest_append (by decide), Blocks.rest_of_lt (by rw [List.length_append]; omega)]
  apply h.copy
  rw [List.length_append] at hi
  omega

theorem copy_rest (m : Memory) {i : Nat} (hi : i < data.length % 64) :
    m.copy 0 (Blocks.rest 64 data) i = (Blocks.rest 64 data).getD i 0 := by
  rw [Memory.copy, if_pos, Nat.sub_zero]
  rw [Blocks.length_rest]
  omega

/-- Whole blocks are taken in, and the buffer starts again with what is behind them. -/
theorem buffers_rest (m : Memory) (h : message.length % 64 = 0) :
    Buffers (m.copy 0 (Blocks.rest 64 data)) (message ++ data) := by
  have hnil : Blocks.rest 64 message = [] := by
    apply List.length_eq_zero_iff.1
    rw [Blocks.length_rest, h]
  intro i hi
  rw [Blocks.rest_append (by decide), hnil]
  apply copy_rest
  rw [List.length_append] at hi
  omega

theorem md5Append_nil (pms : Md5State) : md5Append pms [] = pms := by
  rw [md5Append, if_pos (by decide)]

theorem toInt_pos (hdata : data ≠ []) (hlength : data.length < 2 ^ 28) :
    ¬ (BitVec.ofNat 32 data.length).toInt ≤ 0 := by
  have hsome : 0 < data.length := List.length_pos_iff.2 hdata
  rw [BitVec.toInt_eq_toNat_of_lt (by rw [BitVec.toNat_ofNat]; omega), BitVec.toNat_ofNat]
  omega

/-! The three ways through a call: the buffer was empty, it stays partial, or it is filled. -/

theorem Holds.append_empty (h : Holds pms message) (hdata : data ≠ [])
    (hlength : data.length < 2 ^ 28) (hoffset : message.length % 64 = 0) :
    md5Append pms data = appendBlocks data (addLength pms (BitVec.ofNat 32 data.length)) := by
  rw [md5Append, if_neg (toInt_pos hdata hlength), h.counts.offset, if_neg (by omega)]

theorem Holds.append_partial (h : Holds pms message) (hdata : data ≠ [])
    (hoffset : message.length % 64 ≠ 0) (hroom : message.length % 64 + data.length < 64) :
    md5Append pms data = { addLength pms (BitVec.ofNat 32 data.length) with
      buf := pms.buf.copy (message.length % 64) data } := by
  rw [md5Append, if_neg (toInt_pos hdata (by omega)), h.counts.offset, if_pos hoffset]
  simp only [if_neg (Nat.not_lt.2 (Nat.le_of_lt hroom)), if_pos hroom, List.take_length]
  rfl

theorem Holds.append_filled (h : Holds pms message) (hdata : data ≠ [])
    (hlength : data.length < 2 ^ 28) (hoffset : message.length % 64 ≠ 0)
    (hfull : 64 ≤ message.length % 64 + data.length) :
    md5Append pms data = appendBlocks (data.drop (64 - message.length % 64))
      { addLength pms (BitVec.ofNat 32 data.length) with
        abcd := md5Process pms.abcd
          (Blocks.rest 64 message ++ data.take (64 - message.length % 64))
        buf := pms.buf.copy (message.length % 64) (data.take (64 - message.length % 64)) } := by
  have hmod : message.length % 64 < 64 := Nat.mod_lt _ (by decide)
  have hcopy : (if 64 < message.length % 64 + data.length then 64 - message.length % 64
      else data.length) = 64 - message.length % 64 := by
    split_ifs
    · rfl
    · omega
  have htake : (data.take (64 - message.length % 64)).length = 64 - message.length % 64 := by
    rw [List.length_take]
    omega
  rw [md5Append, if_neg (toInt_pos hdata hlength), h.counts.offset, if_pos hoffset]
  simp only [hcopy]
  rw [if_neg (by omega), ← h.buf.bufBytes (by omega)]
  rfl

theorem changesOnly_buf {m m' : Memory} {bytes : List UInt8} {a : Nat}
    (h : Memory.ChangesOnly (Set.Ico 0 64) m m') (hbytes : a + bytes.length ≤ 64) :
    Memory.ChangesOnly (Set.Ico 0 64) m (m'.copy a bytes) := by
  apply h.trans
  apply (Memory.copy_changesOnly m' a bytes).mono
  intro i hi
  rw [Set.mem_Ico] at hi ⊢
  omega

theorem length_rest_lt (message : List UInt8) : (Blocks.rest 64 message).length < 64 := by
  rw [Blocks.length_rest]
  exact Nat.mod_lt _ (by decide)

theorem Holds.append (h : Holds pms message) (data : List UInt8)
    (hlength : data.length < 2 ^ 28) :
    Holds (md5Append pms data) (message ++ data) ∧
      Memory.ChangesOnly (Set.Ico 0 64) pms.buf (md5Append pms data).buf := by
  by_cases hdata : data = []
  · rw [hdata, md5Append_nil, List.append_nil]
    exact ⟨h, Memory.ChangesOnly.refl _⟩
  have hrest := Blocks.length_rest 64 message
  have hcounts : Counts (addLength pms (BitVec.ofNat 32 data.length)) (message ++ data).length := by
    rw [List.length_append]
    exact h.counts.addLength hlength
  by_cases hoffset : message.length % 64 = 0
  · have hnil : Blocks.rest 64 message = [] := List.length_eq_zero_iff.1 (hrest.trans hoffset)
    rw [h.append_empty hdata hlength hoffset, appendBlocks_eq]
    refine ⟨⟨hcounts, ?_, buffers_rest _ hoffset⟩, ?_⟩
    · rw [Blocks.absorb_append (by decide), hnil, ← h.abcd]
      rfl
    · apply changesOnly_buf (Memory.ChangesOnly.refl _)
      have hlt := length_rest_lt data
      omega
  by_cases hroom : message.length % 64 + data.length < 64
  · have hshort : (Blocks.rest 64 message ++ data).length < 64 := by
      rw [List.length_append]
      omega
    rw [h.append_partial hdata hoffset hroom]
    refine ⟨⟨hcounts, ?_, h.buf.append hroom⟩, ?_⟩
    · rw [Blocks.absorb_append (by decide), Blocks.absorb_of_lt hshort, ← h.abcd]
      rfl
    · exact changesOnly_buf (Memory.ChangesOnly.refl _) (by omega)
  · have hmod : message.length % 64 < 64 := Nat.mod_lt _ (by decide)
    have hfilled : (message ++ data.take (64 - message.length % 64)).length % 64 = 0 := by
      rw [List.length_append, List.length_take]
      omega
    have hblock : (Blocks.rest 64 message ++ data.take (64 - message.length % 64)).length =
        64 := by
      rw [List.length_append, List.length_take]
      omega
    have hsplit : message ++ data = (message ++ data.take (64 - message.length % 64)) ++
        data.drop (64 - message.length % 64) := by
      rw [List.append_assoc, List.take_append_drop]
    rw [h.append_filled hdata hlength hoffset (by omega), appendBlocks_eq]
    refine ⟨⟨hcounts, ?_, ?_⟩, ?_⟩
    · rw [Blocks.absorb_append (by decide), ← List.take_append_drop (64 - message.length % 64) data,
        ← List.append_assoc, Blocks.absorb_block (by decide) hblock, ← h.abcd,
        List.take_append_drop]
    · rw [hsplit]
      exact buffers_rest _ hfilled
    · apply changesOnly_buf
      · apply changesOnly_buf (Memory.ChangesOnly.refl _)
        rw [List.length_take]
        omega
      · have hlt := length_rest_lt (data.drop (64 - message.length % 64))
        omega

end Buffer

/-! ## The digest -/

section Digests

variable {pms : Md5State} {message : List UInt8}

theorem Holds.appendParts {parts : List (List UInt8)} (h : Holds pms message)
    (hparts : ∀ part ∈ parts, part.length < 2 ^ 28) :
    Holds (parts.foldl md5Append pms) (message ++ parts.flatten) ∧
      Memory.ChangesOnly (Set.Ico 0 64) pms.buf (parts.foldl md5Append pms).buf := by
  induction parts generalizing pms message with
  | nil =>
      rw [List.flatten_nil, List.append_nil]
      exact ⟨h, Memory.ChangesOnly.refl _⟩
  | cons part parts ih =>
      have hpart := h.append part (hparts part List.mem_cons_self)
      have hrest := ih hpart.1 fun part hmem => hparts part (List.mem_cons_of_mem _ hmem)
      rw [List.flatten_cons, ← List.append_assoc]
      exact ⟨hrest.1, hpart.2.trans hrest.2⟩

/-- The number of padding bytes in front of the length. -/
theorem Holds.padLength (h : Holds pms message) :
    (((55 - (pms.count0 >>> 3)) &&& 63) + 1).toNat = (55 + 64 - message.length % 64) % 64 + 1 := by
  have hmask : ((63 : BitVec 32)).toNat = 2 ^ 6 - 1 := rfl
  have hcount := h.counts.count0
  have hand : ((55 - (pms.count0 >>> 3)) &&& 63).toNat =
      (55 + 64 - message.length % 64) % 64 := by
    rw [BitVec.toNat_and, hmask, Nat.and_two_pow_sub_one_eq_mod, BitVec.toNat_sub,
      BitVec.toNat_ushiftRight, Nat.shiftRight_eq_div_pow, hcount]
    simp
    omega
  rw [BitVec.toNat_add, hand]
  simp
  omega

theorem countByte_eq (h : Counts pms message.length) {i : Nat} (hi : i < 8) :
    countByte pms i = (8 * message.length / 256 ^ i).toUInt8 := by
  have h0 := pms.count0.isLt
  have h1 := pms.count1.isLt
  unfold Counts at h
  unfold countByte
  apply UInt8.toNat_inj.1
  interval_cases i
  all_goals
    simp [Nat.shiftRight_eq_div_pow]
    omega

/-- What is padded is taken in block by block, with nothing left over. -/
theorem md5Finish_eq (h : Holds pms message) :
    (md5Finish pms).2 = md5 message ∧
      Holds (md5Finish pms).1 (message ++ padding message.length) ∧
      Memory.ChangesOnly (Set.Ico 0 64) pms.buf (md5Finish pms).1.buf := by
  have hpad : pad.take ((55 + 64 - message.length % 64) % 64 + 1) =
      128 :: List.replicate ((55 + 64 - message.length % 64) % 64) 0 := by
    rw [pad, List.take_succ_cons, List.take_replicate]
    congr
    omega
  have hdata : (List.range 8).map (countByte pms) =
      (List.range 8).map fun i => (8 * message.length / 256 ^ i).toUInt8 := by
    apply List.map_congr_left
    intro i hi
    exact countByte_eq h.counts (List.mem_range.1 hi)
  have hpadded := h.append
    (128 :: List.replicate ((55 + 64 - message.length % 64) % 64) 0) (by
      rw [List.length_cons, List.length_replicate]
      omega)
  have hall := hpadded.1.append
    ((List.range 8).map fun i => (8 * message.length / 256 ^ i).toUInt8) (by
      rw [List.length_map, List.length_range]
      decide)
  rw [List.append_assoc] at hall
  unfold md5Finish
  simp only [h.padLength, hpad, hdata]
  refine ⟨?_, hall.1, hpadded.2.trans hall.2⟩
  rw [hall.1.abcd]
  rfl

/-- However a message is cut, its digest is the same, and no byte behind the buffer changes. -/
theorem md5_of_parts (buf : Memory) (parts : List (List UInt8))
    (hparts : ∀ part ∈ parts, part.length < 2 ^ 28) :
    (md5Finish (parts.foldl md5Append (md5Init buf))).2 = md5 parts.flatten ∧
      Memory.ChangesOnly (Set.Ico 0 64) buf
        (md5Finish (parts.foldl md5Append (md5Init buf))).1.buf := by
  have h := (holds_md5Init buf).appendParts hparts
  have hfinish := md5Finish_eq h.1
  exact ⟨hfinish.1, h.2.trans hfinish.2.2⟩

theorem md5_of_parts_abc :
    (md5Finish ([[97], [98, 99]].foldl md5Append (md5Init fun _ => 0))).2 = md5 [97, 98, 99] ∧
      Memory.ChangesOnly (Set.Ico 0 64) (fun _ => 0)
        (md5Finish ([[97], [98, 99]].foldl md5Append (md5Init fun _ => 0))).1.buf :=
  md5_of_parts _ [[97], [98, 99]] (by simp)

end Digests

end Digest

end Cs111Labs
