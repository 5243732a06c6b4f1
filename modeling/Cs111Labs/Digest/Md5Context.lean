import Cs111Labs.Digest.Append

/-!
# The digest of the image builder

Another program for the same digest: the buffer is flushed when it is full, and
blocks are counted instead of bits.
-/

namespace Cs111Labs

namespace Digest

open Foundation

structure Md5Context where
  regs : Registers
  nblocks : BitVec 32
  buf : Memory
  count : Nat
  finalized : Bool

/-! ## One block -/

def roundFF (b c d : BitVec 32) : BitVec 32 := d ^^^ (b &&& (c ^^^ d))

def roundFG (b c d : BitVec 32) : BitVec 32 := roundFF d b c

def roundFH (b c d : BitVec 32) : BitVec 32 := b ^^^ c ^^^ d

def roundFI (b c d : BitVec 32) : BitVec 32 := c ^^^ (b ||| ~~~d)

/-- A line `OP(f, a, b, c, d, k, s, T)`; the next line has the registers one place further on. -/
def opLine (f : BitVec 32 → BitVec 32 → BitVec 32 → BitVec 32) (correctWords : Nat → BitVec 32)
    (r : Registers) (line : Line) : Registers :=
  let a := r.a + (f r.b r.c r.d + correctWords line.1 + line.2.2)
  let a := rotateLeft a line.2.1
  ⟨r.d, a + r.b, r.b, r.c⟩

/-- The first round takes the words in turn. -/
def opLines1 : List (Nat × BitVec 32) :=
  [(7, 0xd76aa478), (12, 0xe8c7b756), (17, 0x242070db), (22, 0xc1bdceee), (7, 0xf57c0faf),
    (12, 0x4787c62a), (17, 0xa8304613), (22, 0xfd469501), (7, 0x698098d8), (12, 0x8b44f7af),
    (17, 0xffff5bb1), (22, 0x895cd7be), (7, 0x6b901122), (12, 0xfd987193), (17, 0xa679438e),
    (22, 0x49b40821)]

def opLines2 : List Line :=
  [(1, 5, 0xf61e2562), (6, 9, 0xc040b340), (11, 14, 0x265e5a51), (0, 20, 0xe9b6c7aa),
    (5, 5, 0xd62f105d), (10, 9, 0x02441453), (15, 14, 0xd8a1e681), (4, 20, 0xe7d3fbc8),
    (9, 5, 0x21e1cde6), (14, 9, 0xc33707d6), (3, 14, 0xf4d50d87), (8, 20, 0x455a14ed),
    (13, 5, 0xa9e3e905), (2, 9, 0xfcefa3f8), (7, 14, 0x676f02d9), (12, 20, 0x8d2a4c8a)]

def opLines3 : List Line :=
  [(5, 4, 0xfffa3942), (8, 11, 0x8771f681), (11, 16, 0x6d9d6122), (14, 23, 0xfde5380c),
    (1, 4, 0xa4beea44), (4, 11, 0x4bdecfa9), (7, 16, 0xf6bb4b60), (10, 23, 0xbebfbc70),
    (13, 4, 0x289b7ec6), (0, 11, 0xeaa127fa), (3, 16, 0xd4ef3085), (6, 23, 0x04881d05),
    (9, 4, 0xd9d4d039), (12, 11, 0xe6db99e5), (15, 16, 0x1fa27cf8), (2, 23, 0xc4ac5665)]

def opLines4 : List Line :=
  [(0, 6, 0xf4292244), (7, 10, 0x432aff97), (14, 15, 0xab9423a7), (5, 21, 0xfc93a039),
    (12, 6, 0x655b59c3), (3, 10, 0x8f0ccc92), (10, 15, 0xffeff47d), (1, 21, 0x85845dd1),
    (8, 6, 0x6fa87e4f), (15, 10, 0xfe2ce6e0), (6, 15, 0xa3014314), (13, 21, 0x4e0811a1),
    (4, 6, 0xf7537e82), (11, 10, 0xbd3af235), (2, 15, 0x2ad7d2bb), (9, 21, 0xeb86d391)]

/-- `cwp` goes over the words in order. -/
def inTurn (lines : List (Nat × BitVec 32)) : List Line :=
  lines.mapIdx fun k line => (k, line)

def transform (hd : Md5Context) (data : List UInt8) : Md5Context :=
  let r := (inTurn opLines1).foldl (opLine roundFF (word data)) hd.regs
  let r := opLines2.foldl (opLine roundFG (word data)) r
  let r := opLines3.foldl (opLine roundFH (word data)) r
  let r := opLines4.foldl (opLine roundFI (word data)) r
  { hd with regs := ⟨hd.regs.a + r.a, hd.regs.b + r.b, hd.regs.c + r.c, hd.regs.d + r.d⟩ }

theorem roundFF_eq (b c d : BitVec 32) : roundFF b c d = roundF b c d := by
  apply BitVec.eq_of_getLsbD_eq
  intro i hi
  simp only [roundFF, roundF, BitVec.getLsbD_xor, BitVec.getLsbD_and, BitVec.getLsbD_or,
    BitVec.getLsbD_not, hi, decide_true, Bool.true_and]
  cases b.getLsbD i <;> cases c.getLsbD i <;> cases d.getLsbD i <;> rfl

theorem roundFG_eq (b c d : BitVec 32) : roundFG b c d = roundG b c d := by
  apply BitVec.eq_of_getLsbD_eq
  intro i hi
  simp only [roundFG, roundFF, roundG, BitVec.getLsbD_xor, BitVec.getLsbD_and,
    BitVec.getLsbD_or, BitVec.getLsbD_not, hi, decide_true, Bool.true_and]
  cases b.getLsbD i <;> cases c.getLsbD i <;> cases d.getLsbD i <;> rfl

theorem opLine_eq (f : BitVec 32 → BitVec 32 → BitVec 32 → BitVec 32) :
    opLine f = setLine f := by
  funext x r line
  simp only [opLine, setLine, ← BitVec.add_assoc]

theorem transform_eq (hd : Md5Context) (data : List UInt8) :
    transform hd data = { hd with regs := md5Process hd.regs data } := by
  have hff : roundFF = roundF := by
    funext b c d
    exact roundFF_eq b c d
  have hfg : roundFG = roundG := by
    funext b c d
    exact roundFG_eq b c d
  have hlines : inTurn opLines1 = lines1 ∧ opLines2 = lines2 ∧ opLines3 = lines3 ∧
      opLines4 = lines4 := by
    decide
  obtain ⟨h1, h2, h3, h4⟩ := hlines
  simp only [transform, md5Process, opLine_eq, hff, hfg, h1, h2, h3, h4]
  rfl

/-! ## The buffer -/

namespace Md5Context

def md5Init (buf : Memory) : Md5Context where
  regs := ⟨0x67452301, 0xefcdab89, 0x98badcfe, 0x10325476⟩
  nblocks := 0
  buf := buf
  count := 0
  finalized := false

/-- `md5_update` without bytes. -/
def flush (hd : Md5Context) : Md5Context :=
  if hd.count = 64 then
    { transform hd (bufBytes hd.buf) with count := 0, nblocks := hd.nblocks + 1 }
  else hd

/-- The loop that fills the buffer, and the bytes behind. -/
def store : List UInt8 → Md5Context → List UInt8 × Md5Context
  | [], hd => ([], hd)
  | byte :: inbuf, hd =>
      if hd.count < 64 then
        store inbuf { hd with
          buf := Function.update hd.buf hd.count byte
          count := hd.count + 1 }
      else (byte :: inbuf, hd)

/-- The loop over the whole blocks, and the bytes behind. -/
def transformBlocks (inbuf : List UInt8) (hd : Md5Context) : List UInt8 × Md5Context :=
  if 64 ≤ inbuf.length then
    transformBlocks (inbuf.drop 64)
      { transform hd (inbuf.take 64) with count := 0, nblocks := hd.nblocks + 1 }
  else (inbuf, hd)
termination_by inbuf.length
decreasing_by
  rw [List.length_drop]
  omega

def blocksAndRest (inbuf : List UInt8) (hd : Md5Context) : Md5Context :=
  let (inbuf, hd) := transformBlocks inbuf hd
  (store inbuf hd).2

def md5Update (hd : Md5Context) (inbuf : List UInt8) : Md5Context :=
  let hd := hd.flush
  if hd.count ≠ 0 then
    let (inbuf, hd) := store inbuf hd
    let hd := hd.flush
    if inbuf = [] then hd else blocksAndRest inbuf hd
  else blocksAndRest inbuf hd

/-- The words `lsb` and `msb`. -/
def bitCount (hd : Md5Context) : BitVec 32 × BitVec 32 :=
  let t := hd.nblocks
  let lsb := t <<< 6
  let msb := (if lsb < t then 1 else 0) + (t >>> 26)
  let t := lsb
  let lsb := t + BitVec.ofNat 32 hd.count
  let msb := if lsb < t then msb + 1 else msb
  let t := lsb
  let lsb := t <<< 3
  let msb := if lsb < t then msb + 1 else msb
  (lsb, msb + (t >>> 29))

def putByte (hd : Md5Context) (byte : UInt8) : Md5Context :=
  { hd with buf := Function.update hd.buf hd.count byte, count := hd.count + 1 }

/-- So many zeros. -/
def putZeros : Nat → Md5Context → Md5Context
  | 0, hd => hd
  | n + 1, hd => putZeros n (hd.putByte 0)

/-- The padding, with 8 bytes left in the buffer. -/
def putPadding (hd : Md5Context) : Md5Context :=
  if hd.count < 56 then
    let hd := hd.putByte 128
    putZeros (56 - hd.count) hd
  else
    let hd := hd.putByte 128
    let hd := (putZeros (64 - hd.count) hd).flush
    { hd with buf := hd.buf.fill 0 56 0 }

def doFinal (hd : Md5Context) : Md5Context :=
  let hd := hd.flush
  let (lsb, msb) := hd.bitCount
  let hd := hd.putPadding
  let hd := { hd with buf := hd.buf.copy 56 (wordBytes lsb ++ wordBytes msb) }
  let hd := transform hd (bufBytes hd.buf)
  { hd with buf := hd.buf.copy 0 hd.regs.bytes, finalized := true }

/-- The context after the call, and the digest. -/
def md5Final (hd : Md5Context) : Md5Context × List UInt8 :=
  let hd := if hd.finalized then hd else hd.doFinal
  (hd, (List.range 16).map hd.buf)

/-! ## Updates -/

/-- What the context of a message holds. -/
structure Holds (hd : Md5Context) (message : List UInt8) : Prop where
  nblocks : hd.nblocks = BitVec.ofNat 32 (message.length / 64)
  count : hd.count = message.length % 64
  regs : hd.regs = Blocks.absorb md5Process 64 initial message
  buf : Buffers hd.buf message
  finalized : hd.finalized = false

theorem holds_md5Init (buf : Memory) : Holds (md5Init buf) [] where
  nblocks := rfl
  count := rfl
  regs := rfl
  buf := buffers_of_aligned buf rfl
  finalized := rfl

section Updates

variable {hd : Md5Context} {message inbuf : List UInt8}

theorem store_eq (hcount : hd.count ≤ 64) : store inbuf hd =
    (inbuf.drop (64 - hd.count), { hd with
      buf := hd.buf.copy hd.count (inbuf.take (64 - hd.count))
      count := hd.count + (inbuf.take (64 - hd.count)).length }) := by
  induction inbuf generalizing hd with
  | nil =>
      rw [List.take_nil, Memory.copy_nil, List.drop_nil]
      rfl
  | cons byte inbuf ih =>
      rw [store]
      by_cases hroom : hd.count < 64
      · have hsucc : 64 - hd.count = 64 - (hd.count + 1) + 1 := by omega
        rw [if_pos hroom, ih (by exact hroom), hsucc, List.take_succ_cons, List.drop_succ_cons,
          List.length_cons, Memory.update_eq_copy]
        dsimp only
        rw [Memory.copy_copy (by rfl), List.singleton_append, Nat.add_right_comm,
          Nat.add_assoc hd.count]
      · rw [if_neg hroom, Nat.sub_eq_zero_of_le (by omega), List.take_zero, Memory.copy_nil]
        rfl

theorem flush_of_lt (hcount : hd.count < 64) : hd.flush = hd := if_neg (by omega)

theorem transformBlocks_eq (hcount : hd.count = 0) : transformBlocks inbuf hd =
    (Blocks.rest 64 inbuf, { hd with
      regs := Blocks.absorb md5Process 64 hd.regs inbuf
      nblocks := hd.nblocks + BitVec.ofNat 32 (inbuf.length / 64) }) := by
  induction hlength : inbuf.length using Nat.strongRecOn generalizing inbuf hd with
  | _ n ih =>
      rw [transformBlocks]
      by_cases hfull : 64 ≤ inbuf.length
      · have hdiv : n / 64 = 1 + (inbuf.drop 64).length / 64 := by
          rw [List.length_drop]
          omega
        rw [if_pos hfull, ih (inbuf.drop 64).length (by rw [List.length_drop]; omega)
          (by rfl) (by rfl), transform_eq, Blocks.absorb_of_le (by decide) hfull,
          Blocks.rest_of_le (by decide) hfull, hdiv, BitVec.ofNat_add, ← BitVec.add_assoc, hcount]
        rfl
      · rw [if_neg hfull, Blocks.absorb_of_lt (by omega), Blocks.rest_of_lt (by omega),
          Nat.div_eq_of_lt (by omega), BitVec.add_zero]

theorem blocksAndRest_eq (hcount : hd.count = 0) : blocksAndRest inbuf hd = { hd with
    regs := Blocks.absorb md5Process 64 hd.regs inbuf
    nblocks := hd.nblocks + BitVec.ofNat 32 (inbuf.length / 64)
    buf := hd.buf.copy 0 (Blocks.rest 64 inbuf)
    count := inbuf.length % 64 } := by
  have hlt := length_rest_lt inbuf
  rw [blocksAndRest, transformBlocks_eq hcount]
  dsimp only
  rw [store_eq (by simp [hcount])]
  simp [hcount, List.take_of_length_le (Nat.le_of_lt hlt), Blocks.length_rest]

theorem Holds.blocksAndRest (h : Holds hd message) (inbuf : List UInt8)
    (haligned : message.length % 64 = 0) :
    Holds (blocksAndRest inbuf hd) (message ++ inbuf) ∧
      Memory.ChangesOnly (Set.Ico 0 64) hd.buf (blocksAndRest inbuf hd).buf := by
  have hnil : Blocks.rest 64 message = [] := by
    apply List.length_eq_zero_iff.1
    rw [Blocks.length_rest, haligned]
  have hlt := length_rest_lt inbuf
  rw [blocksAndRest_eq (h.count.trans haligned)]
  refine ⟨⟨?_, ?_, ?_, buffers_rest _ haligned, h.finalized⟩, ?_⟩
  · dsimp only
    rw [h.nblocks, ← BitVec.ofNat_add, List.length_append]
    congr 1
    omega
  · dsimp only
    rw [List.length_append]
    omega
  · rw [Blocks.absorb_append (by decide), hnil, ← h.regs]
    rfl
  · exact changesOnly_buf (Memory.ChangesOnly.refl _) (by omega)

theorem flush_buf (hd : Md5Context) : hd.flush.buf = hd.buf := by
  rw [Md5Context.flush]
  split_ifs
  · rw [transform_eq]
  · rfl

/-- A full buffer is flushed. -/
theorem Holds.flush (h : Holds hd message)
    (hfull : message.length % 64 + inbuf.length = 64) :
    Holds (flush { hd with
      buf := hd.buf.copy (message.length % 64) inbuf
      count := message.length % 64 + inbuf.length }) (message ++ inbuf) := by
  have hrest := Blocks.length_rest 64 message
  rw [Md5Context.flush, if_pos hfull, transform_eq]
  dsimp only
  rw [h.buf.bufBytes hfull]
  refine ⟨?_, ?_, ?_, buffers_of_aligned _ ?_, h.finalized⟩
  · dsimp only
    rw [h.nblocks, List.length_append,
      show (message.length + inbuf.length) / 64 = message.length / 64 + 1 by omega,
      BitVec.ofNat_add]
    rfl
  · dsimp only
    rw [List.length_append]
    omega
  · rw [Blocks.absorb_append (by decide), Blocks.absorb_of_eq (by decide) (by
      rw [List.length_append]
      omega), ← h.regs]
  · rw [List.length_append]
    omega

/-- Bytes that leave room in the buffer. -/
theorem Holds.store (h : Holds hd message)
    (hroom : message.length % 64 + inbuf.length < 64) :
    Holds { hd with
      buf := hd.buf.copy (message.length % 64) inbuf
      count := message.length % 64 + inbuf.length } (message ++ inbuf) := by
  have hrest := Blocks.length_rest 64 message
  refine ⟨?_, ?_, ?_, h.buf.append hroom, h.finalized⟩
  · dsimp only
    rw [h.nblocks, List.length_append]
    congr 1
    omega
  · dsimp only
    rw [List.length_append]
    omega
  · rw [Blocks.absorb_append (by decide), Blocks.absorb_of_lt (by
      rw [List.length_append]
      omega), ← h.regs]

theorem Holds.update (h : Holds hd message) (inbuf : List UInt8) :
    Holds (md5Update hd inbuf) (message ++ inbuf) ∧
      Memory.ChangesOnly (Set.Ico 0 64) hd.buf (md5Update hd inbuf).buf := by
  have hmod : message.length % 64 < 64 := Nat.mod_lt _ (by decide)
  have hcount := h.count
  rw [Md5Context.md5Update, flush_of_lt (by omega)]
  by_cases haligned : hd.count = 0
  · rw [if_neg (not_not.2 haligned)]
    exact h.blocksAndRest inbuf (by omega)
  · dsimp only
    rw [if_pos haligned, store_eq (by omega), hcount]
    dsimp only
    by_cases hroom : message.length % 64 + inbuf.length < 64
    · have hall : inbuf.take (64 - message.length % 64) = inbuf :=
        List.take_of_length_le (by omega)
      rw [hall, flush_of_lt hroom, if_pos (List.drop_eq_nil_of_le (by omega))]
      exact ⟨h.store hroom, changesOnly_buf (Memory.ChangesOnly.refl _) (by omega)⟩
    · have htake : message.length % 64 + (inbuf.take (64 - message.length % 64)).length = 64 := by
        rw [List.length_take]
        omega
      have hfull := h.flush htake
      have haligned : (message ++ inbuf.take (64 - message.length % 64)).length % 64 = 0 := by
        rw [List.length_append]
        omega
      have hsplit : message ++ inbuf = (message ++ inbuf.take (64 - message.length % 64)) ++
          inbuf.drop (64 - message.length % 64) := by
        rw [List.append_assoc, List.take_append_drop]
      have hbuf : Memory.ChangesOnly (Set.Ico 0 64) hd.buf
          (hd.buf.copy (message.length % 64) (inbuf.take (64 - message.length % 64))) :=
        changesOnly_buf (Memory.ChangesOnly.refl _) (by omega)
      split_ifs with hdrop
      · rw [flush_buf]
        rw [hdrop, List.append_nil] at hsplit
        rw [hsplit]
        exact ⟨hfull, hbuf⟩
      · have hblocks := hfull.blocksAndRest (inbuf.drop (64 - message.length % 64))
          haligned
        rw [flush_buf, ← hsplit] at hblocks
        exact ⟨hblocks.1, hbuf.trans hblocks.2⟩

end Updates

/-! ## The last blocks -/

section Last

variable {hd : Md5Context} {message : List UInt8}

theorem putByte_eq (hd : Md5Context) (byte : UInt8) : hd.putByte byte =
    { hd with buf := hd.buf.copy hd.count [byte], count := hd.count + 1 } := by
  rw [putByte, Memory.update_eq_copy]

theorem putZeros_eq (n : Nat) (hd : Md5Context) : putZeros n hd = { hd with
    buf := hd.buf.copy hd.count (List.replicate n 0)
    count := hd.count + n } := by
  induction n generalizing hd with
  | zero =>
      rw [List.replicate_zero, Memory.copy_nil]
      rfl
  | succ n ih =>
      rw [putZeros, ih, putByte_eq]
      dsimp only
      rw [Memory.copy_copy (by rfl), List.singleton_append, List.replicate_succ, Nat.add_right_comm]
      rfl

/-- The two words of a number, byte by byte. -/
theorem wordBytes_append {lo hi : BitVec 32} {v : Nat}
    (h : lo.toNat + 2 ^ 32 * hi.toNat = v) :
    wordBytes lo ++ wordBytes hi = (List.range 8).map fun i => (v / 256 ^ i).toUInt8 := by
  have hlo := lo.isLt
  have hhi := hi.isLt
  have hbyte : ∀ (w : BitVec 32) k, (UInt8.ofBitVec ((w >>> k).setWidth 8)).toNat =
      w.toNat / 2 ^ k % 256 := by
    intro w k
    simp [Nat.shiftRight_eq_div_pow]
  have hlow : ∀ k < 4, UInt8.ofBitVec ((lo >>> (8 * k)).setWidth 8) = (v / 256 ^ k).toUInt8 := by
    intro k hk
    apply UInt8.toNat_inj.1
    rw [hbyte, Nat.toUInt8, UInt8.toNat_ofNat']
    interval_cases k <;> omega
  have hhigh : ∀ k < 4,
      UInt8.ofBitVec ((hi >>> (8 * k)).setWidth 8) = (v / 256 ^ (4 + k)).toUInt8 := by
    intro k hk
    apply UInt8.toNat_inj.1
    rw [hbyte, Nat.toUInt8, UInt8.toNat_ofNat']
    interval_cases k <;> omega
  rw [show 8 = 4 + 4 from rfl, List.range_add, List.map_append, List.map_map, wordBytes, wordBytes]
  congr 1
  · apply List.map_congr_left
    intro k hk
    exact hlow k (List.mem_range.1 hk)
  · apply List.map_congr_left
    intro k hk
    exact hhigh k (List.mem_range.1 hk)

/-- A check for a carry after a shift adds one too many where it holds. -/
theorem Holds.bitCount (h : Holds hd message) (hlength : message.length < 2 ^ 32)
    (hcarry : message.length ≤ 8 * message.length % 2 ^ 32) :
    hd.bitCount.1.toNat + 2 ^ 32 * hd.bitCount.2.toNat = 8 * message.length := by
  have hblocks : hd.nblocks.toNat = message.length / 64 := by
    rw [h.nblocks, BitVec.toNat_ofNat]
    omega
  have hbytes : (hd.nblocks <<< 6).toNat = 64 * (message.length / 64) := by
    rw [BitVec.toNat_shiftLeft, Nat.shiftLeft_eq, hblocks]
    omega
  have hcount : (hd.nblocks <<< 6 + BitVec.ofNat 32 hd.count).toNat = message.length := by
    rw [BitVec.toNat_add, hbytes, BitVec.toNat_ofNat, h.count]
    omega
  have hbits : ((hd.nblocks <<< 6 + BitVec.ofNat 32 hd.count) <<< 3).toNat =
      8 * message.length % 2 ^ 32 := by
    rw [BitVec.toNat_shiftLeft, Nat.shiftLeft_eq, hcount]
    omega
  have hhigh : (hd.nblocks >>> 26).toNat = 0 := by
    rw [BitVec.toNat_ushiftRight, Nat.shiftRight_eq_div_pow, hblocks]
    omega
  have hcarry6 : ¬ hd.nblocks <<< 6 < hd.nblocks := by
    rw [BitVec.lt_def, hbytes, hblocks]
    omega
  have hcarryCount : ¬ hd.nblocks <<< 6 + BitVec.ofNat 32 hd.count < hd.nblocks <<< 6 := by
    rw [BitVec.lt_def, hcount, hbytes]
    omega
  have hcarry3 : ¬ (hd.nblocks <<< 6 + BitVec.ofNat 32 hd.count) <<< 3 <
      hd.nblocks <<< 6 + BitVec.ofNat 32 hd.count := by
    rw [BitVec.lt_def, hbits, hcount]
    omega
  rw [Md5Context.bitCount]
  dsimp only
  rw [if_neg hcarry6, if_neg hcarryCount, if_neg hcarry3, hbits, BitVec.toNat_add,
    BitVec.toNat_add, hhigh, BitVec.toNat_ushiftRight, Nat.shiftRight_eq_div_pow, hcount]
  simp
  omega

/-- The padded message, with the last bytes of the buffer. -/
theorem lastBlock {regs : Registers} {buf : Memory} {front : List UInt8} (last : List UInt8)
    (hregs : regs = Blocks.absorb md5Process 64 initial front) (hbuf : Buffers buf front)
    (hfull : front.length % 64 + last.length = 64) :
    md5Process regs (bufBytes (buf.copy (front.length % 64) last)) =
      Blocks.absorb md5Process 64 initial (front ++ last) := by
  have hblock : (Blocks.rest 64 front ++ last).length = 64 := by
    rw [List.length_append, Blocks.length_rest, hfull]
  rw [hbuf.bufBytes hfull, hregs, Blocks.absorb_append (by decide),
    Blocks.absorb_of_eq (by decide) hblock]

theorem fill_eq_copy (m : Memory) (n : Nat) :
    m.fill 0 n 0 = m.copy 0 (List.replicate n 0) := by
  funext i
  rw [Memory.fill, Memory.copy, List.length_replicate]
  by_cases hi : 0 ≤ i ∧ i < 0 + n
  · rw [if_pos hi, if_pos hi, List.getD_replicate]
    omega
  · rw [if_neg hi, if_neg hi]

theorem putPad_eq (n : Nat) (hd : Md5Context) : putZeros n (hd.putByte 128) = { hd with
    buf := hd.buf.copy hd.count (128 :: List.replicate n 0)
    count := hd.count + 1 + n } := by
  rw [putZeros_eq, putByte_eq]
  dsimp only
  rw [Memory.copy_copy (by rfl), List.singleton_append]

theorem doFinal_regs (hcount : hd.count < 64) : (doFinal hd).regs =
    md5Process hd.putPadding.regs (bufBytes (hd.putPadding.buf.copy 56
      (wordBytes hd.bitCount.1 ++ wordBytes hd.bitCount.2))) := by
  rw [doFinal, flush_of_lt hcount]
  dsimp only
  rw [transform_eq]

/-- The padding and the length fit in the block. -/
theorem putPadding_of_room (hroom : hd.count < 56) : putPadding hd = { hd with
    buf := hd.buf.copy hd.count (128 :: List.replicate (55 - hd.count) 0)
    count := 56 } := by
  rw [putPadding, if_pos hroom]
  dsimp only
  rw [putPad_eq, show (hd.putByte 128).count = hd.count + 1 from rfl,
    show 56 - (hd.count + 1) = 55 - hd.count by omega,
    show hd.count + 1 + (55 - hd.count) = 56 by omega]

/-- The padding fills the block, and the length is at the end of another one. -/
theorem putPadding_of_full (hfull : 56 ≤ hd.count) (hcount : hd.count < 64) :
    putPadding hd =
      let block := hd.buf.copy hd.count (128 :: List.replicate (63 - hd.count) 0)
      { hd with
        regs := md5Process hd.regs (bufBytes block)
        nblocks := hd.nblocks + 1
        buf := block.copy 0 (List.replicate 56 0)
        count := 0 } := by
  rw [putPadding, if_neg (by omega)]
  dsimp only
  rw [putPad_eq, show (hd.putByte 128).count = hd.count + 1 from rfl,
    show 64 - (hd.count + 1) = 63 - hd.count by omega, flush]
  dsimp only
  rw [if_pos (by omega), transform_eq]
  dsimp only
  rw [fill_eq_copy]

theorem length_wordBytes (w : BitVec 32) : (wordBytes w).length = 4 := by
  rw [wordBytes, List.length_map, List.length_range]

/-- The context takes in the padded message. -/
theorem Holds.doFinal_regs (h : Holds hd message) (hlength : message.length < 2 ^ 32)
    (hcarry : message.length ≤ 8 * message.length % 2 ^ 32) :
    (doFinal hd).regs =
      Blocks.absorb md5Process 64 initial (message ++ padding message.length) := by
  have hwords := wordBytes_append (h.bitCount hlength hcarry)
  have hlast : (wordBytes hd.bitCount.1 ++ wordBytes hd.bitCount.2).length = 8 := by
    rw [List.length_append, length_wordBytes, length_wordBytes]
  have hmod : message.length % 64 < 64 := Nat.mod_lt _ (by decide)
  rw [Md5Context.doFinal_regs (by rw [h.count]; exact hmod), hwords]
  by_cases hroom : message.length % 64 < 56
  · have hpad : 56 = message.length % 64 +
        (128 :: List.replicate (55 - message.length % 64) (0 : UInt8)).length := by
      rw [List.length_cons, List.length_replicate]
      omega
    rw [putPadding_of_room (by rw [h.count]; exact hroom), h.count]
    dsimp only
    rw [Memory.copy_copy hpad, ← hwords, lastBlock _ h.regs h.buf (by
      rw [List.length_append, hlast]
      omega), hwords, padding,
      show (55 + 64 - message.length % 64) % 64 = 55 - message.length % 64 by omega]
  · have hpad : message.length % 64 +
        (128 :: List.replicate (63 - message.length % 64) (0 : UInt8)).length = 64 := by
      rw [List.length_cons, List.length_replicate]
      omega
    have haligned : (message ++
        128 :: List.replicate (63 - message.length % 64) (0 : UInt8)).length % 64 = 0 := by
      rw [List.length_append]
      omega
    have hzeros : (55 + 64 - message.length % 64) % 64 = 63 - message.length % 64 + 56 := by
      omega
    have hblock := lastBlock
      (List.replicate 56 0 ++ (wordBytes hd.bitCount.1 ++ wordBytes hd.bitCount.2)) rfl
      (buffers_of_aligned (hd.buf.copy (message.length % 64)
        (128 :: List.replicate (63 - message.length % 64) 0)) haligned) (by
        rw [haligned, List.length_append, List.length_replicate, hlast])
    rw [haligned] at hblock
    rw [putPadding_of_full (by rw [h.count]; omega) (by rw [h.count]; exact hmod), h.count]
    dsimp only
    rw [Memory.copy_copy (by rw [List.length_replicate]), lastBlock _ h.regs h.buf hpad,
      ← hwords, hblock, hwords, padding, hzeros, List.replicate_add]
    simp only [List.append_assoc, List.cons_append]

theorem length_bytes (r : Registers) : r.bytes.length = 16 := by
  simp only [Registers.bytes, List.length_append, length_wordBytes]

theorem map_copy_bytes (m : Memory) (r : Registers) :
    (List.range 16).map (m.copy 0 r.bytes) = r.bytes := by
  apply List.ext_getElem
  · rw [List.length_map, List.length_range, length_bytes]
  · intro i hi hi'
    have hi16 := hi'
    rw [length_bytes] at hi16
    rw [List.getElem_map, List.getElem_range, Memory.copy, if_pos (by rw [length_bytes]; omega),
      Nat.sub_zero, List.getD_eq_getElem _ _ hi']

theorem putPadding_changesOnly (hcount : hd.count < 64) :
    Memory.ChangesOnly (Set.Ico 0 64) hd.buf hd.putPadding.buf := by
  by_cases hroom : hd.count < 56
  · rw [putPadding_of_room hroom]
    apply changesOnly_buf (Memory.ChangesOnly.refl _)
    rw [List.length_cons, List.length_replicate]
    omega
  · rw [putPadding_of_full (by omega) hcount]
    apply changesOnly_buf
    · apply changesOnly_buf (Memory.ChangesOnly.refl _)
      rw [List.length_cons, List.length_replicate]
      omega
    · rw [List.length_replicate]
      decide

theorem doFinal_changesOnly (hcount : hd.count < 64) :
    Memory.ChangesOnly (Set.Ico 0 64) hd.buf (doFinal hd).buf := by
  rw [doFinal, flush_of_lt hcount]
  dsimp only
  apply changesOnly_buf
  · rw [transform_eq]
    apply changesOnly_buf (putPadding_changesOnly hcount)
    rw [List.length_append, length_wordBytes, length_wordBytes]
  · rw [length_bytes]
    decide

theorem Holds.updates (h : Holds hd message) (parts : List (List UInt8)) :
    Holds (parts.foldl md5Update hd) (message ++ parts.flatten) ∧
      Memory.ChangesOnly (Set.Ico 0 64) hd.buf (parts.foldl md5Update hd).buf := by
  induction parts generalizing hd message with
  | nil =>
      rw [List.flatten_nil, List.append_nil]
      exact ⟨h, Memory.ChangesOnly.refl _⟩
  | cons part parts ih =>
      have hpart := h.update part
      have hrest := ih hpart.1
      rw [List.flatten_cons, ← List.append_assoc]
      exact ⟨hrest.1, hpart.2.trans hrest.2⟩

/-- The digest is right as long as the check for a carry of the bit count finds none. -/
theorem md5Final_of_parts (buf : Memory) (parts : List (List UInt8))
    (hlength : parts.flatten.length < 2 ^ 32)
    (hcarry : parts.flatten.length ≤ 8 * parts.flatten.length % 2 ^ 32) :
    let final := md5Final (parts.foldl md5Update (md5Init buf))
    final.2 = md5 parts.flatten ∧ md5Final final.1 = final ∧
      Memory.ChangesOnly (Set.Ico 0 64) buf final.1.buf := by
  obtain ⟨h, hbuf⟩ := (holds_md5Init buf).updates parts
  rw [List.nil_append] at h
  have hdigest : (List.range 16).map (doFinal (parts.foldl md5Update (md5Init buf))).buf =
      md5 parts.flatten := by
    rw [md5, ← h.doFinal_regs hlength hcarry]
    exact map_copy_bytes _ _
  have hfinal : md5Final (parts.foldl md5Update (md5Init buf)) =
      (doFinal (parts.foldl md5Update (md5Init buf)), md5 parts.flatten) := by
    rw [md5Final, h.finalized, ← hdigest]
    rfl
  rw [hfinal]
  refine ⟨rfl, ?_, hbuf.trans (doFinal_changesOnly ?_)⟩
  · rw [md5Final, ← hdigest]
    rfl
  · rw [h.count]
    exact Nat.mod_lt _ (by decide)

theorem md5Final_of_parts_abc :
    let final := md5Final ([[97], [98, 99]].foldl md5Update (md5Init fun _ => 0))
    final.2 = md5 [97, 98, 99] ∧ md5Final final.1 = final ∧
      Memory.ChangesOnly (Set.Ico 0 64) (fun _ => 0) final.1.buf :=
  md5Final_of_parts _ [[97], [98, 99]] (by decide) (by decide)

end Last

end Md5Context

end Digest

end Cs111Labs
