import Cs111Labs.Ospfs.FileWrites
import Cs111Labs.Ospfs.OneFile

/-!
# Reading a regular file

`ospfs_read` copies each block from its beginning, also when the position is in
the middle of it.
-/

namespace Cs111Labs.Ospfs

open Foundation Memory

variable {g : Geometry} {m : Memory} {i n count fPos rest : Nat} {space : UserSpace}
  {bytes : List UInt8} {cs : Nat → Nat}

/-- A file all of whose bytes are in blocks. -/
structure Readable (g : Geometry) (m : Memory) (i : Nat) : Prop where
  fits : g.Fits m
  lt : i < g.ninodes
  block : ∀ off < oiSize m (inodeAt i), blocknoOf m i off ≠ 0

theorem copyToUser_ok {src start : Nat} (h : ∀ t < n, space (start + t) = true) :
    copyToUser m src space start n = (true, (List.range n).map fun t => m (src + t)) := by
  have hall : (List.range n).takeWhile (fun t => space (start + t)) = List.range n :=
    List.takeWhile_eq_self_iff.2 fun t ht => h t (List.mem_range.1 ht)
  simp only [copyToUser, hall, List.length_range, decide_true]

/-! ## The loop -/

/-- The byte that a call at the position `p` copies as number `t`. -/
def served (m : Memory) (i p t : Nat) : UInt8 :=
  if (p + t) / 1024 = p / 1024 then content m i (1024 * (p / 1024) + t)
  else content m i (p + t)

/-- A round copies from the beginning of the block. -/
theorem served_chunk {t : Nat} (ht : t < chunk fPos rest)
    (hsize : fPos + rest ≤ oiSize m (inodeAt i)) :
    m (ospfsBlock (blocknoOf m i fPos) + t) = served m i fPos t := by
  obtain ⟨hle, hblock⟩ := chunk_le fPos rest
  have hfirst : address m i (1024 * (fPos / 1024)) = ospfsBlock (blocknoOf m i fPos) := by
    rw [address_eq, blocknoOf_congr (show 1024 * (fPos / 1024) / 1024 = fPos / 1024 by omega)
      (by omega) (by omega)]
    omega
  rw [served, if_pos (by omega), content, address_add_of_block (by omega) (by omega), hfirst]

/-- The next round is at the beginning of a block. -/
theorem served_after {t : Nat} (ht : t < rest - chunk fPos rest) :
    served m i (fPos + chunk fPos rest) t = served m i fPos (chunk fPos rest + t) := by
  have hchunk : chunk fPos rest = 1024 - fPos % 1024 := by
    unfold chunk at ht ⊢
    split_ifs at ht ⊢
    · omega
    · rfl
  have hbegin : 1024 * ((fPos + chunk fPos rest) / 1024) = fPos + chunk fPos rest := by omega
  rw [served, served, hbegin, ite_self, if_neg (by omega), Nat.add_assoc]

theorem readLoop_done {oi rounds : Nat} :
    readLoop m oi space count rounds count fPos bytes = (.ok count, fPos, bytes) := by
  cases rounds with
  | zero => rfl
  | succ rounds => rw [readLoop, if_neg (lt_irrefl count)]

theorem map_range_append {α : Type} (f : Nat → α) {k : Nat} (hle : n ≤ k) :
    (List.range n).map f ++ (List.range (k - n)).map (fun t => f (n + t)) =
      (List.range k).map f := by
  obtain ⟨d, rfl⟩ := Nat.exists_eq_add_of_le hle
  rw [Nat.add_sub_cancel_left, List.range_add, List.map_append, List.map_map]
  rfl

/-- Below the size every byte is copied, though not always the right one. -/
theorem readLoop_served (h : Readable g m i) (hspace : ∀ t < count, space t = true)
    (rounds amount fPos : Nat) (bytes : List UInt8) (hamount : amount ≤ count)
    (hrounds : count - amount ≤ rounds)
    (hsize : fPos + (count - amount) ≤ oiSize m (inodeAt i)) :
    readLoop m (inodeAt i) space count rounds amount fPos bytes =
      (.ok count, fPos + (count - amount),
        bytes ++ (List.range (count - amount)).map (served m i fPos)) := by
  induction rounds generalizing amount fPos bytes with
  | zero =>
      obtain rfl : amount = count := by omega
      rw [readLoop_done, Nat.sub_self]
      simp
  | succ rounds ih =>
      rcases hamount.lt_or_eq with hlt | rfl
      · have hsmall : fPos < 2 ^ 32 := by
          have hload : oiSize m (inodeAt i) < 2 ^ 32 := load32_lt m (inodeAt i)
          omega
        obtain ⟨hle, -⟩ := chunk_le fPos (count - amount)
        have hpos : 0 < chunk fPos (count - amount) := chunk_pos (by omega)
        have hblock : ospfsInodeBlockno m (inodeAt i) fPos ≠ 0 := h.block fPos (by omega)
        have hgot : (List.range (chunk fPos (count - amount))).map
              (fun t => m (ospfsBlock (blocknoOf m i fPos) + t)) =
            (List.range (chunk fPos (count - amount))).map (served m i fPos) :=
          List.map_congr_left fun t ht => served_chunk (List.mem_range.1 ht) hsize
        have hcopy : copyToUser m (ospfsBlock (ospfsInodeBlockno m (inodeAt i) fPos)) space amount
              (chunk fPos (count - amount)) =
            (true, (List.range (chunk fPos (count - amount))).map (served m i fPos)) := by
          rw [← hgot]
          exact copyToUser_ok fun t ht => hspace (amount + t) (by omega)
        have hafter : (List.range (count - amount - chunk fPos (count - amount))).map
              (served m i (fPos + chunk fPos (count - amount))) =
            (List.range (count - amount - chunk fPos (count - amount))).map
              fun t => served m i fPos (chunk fPos (count - amount) + t) :=
          List.map_congr_left fun t ht => served_after (List.mem_range.1 ht)
        rw [readLoop, if_pos hlt, Nat.mod_eq_of_lt hsmall]
        dsimp only
        rw [if_neg hblock, hcopy]
        dsimp only
        rw [ih _ _ _ (by omega) (by omega) (by omega), Nat.sub_add_eq, hafter,
          List.append_assoc, map_range_append _ hle, Nat.add_assoc, Nat.add_sub_cancel' hle]
      · rw [readLoop_done, Nat.sub_self]
        simp

/-- Without an error the loop has copied as many bytes as it was asked for. -/
theorem readLoop_count {oi result : Nat} (rounds amount fPos : Nat) (bytes : List UInt8)
    (hamount : amount ≤ count) (hrounds : count - amount ≤ rounds)
    (hok : (readLoop m oi space count rounds amount fPos bytes).1 = .ok result) :
    result = count := by
  induction rounds generalizing amount fPos bytes with
  | zero =>
      obtain rfl : amount = count := by omega
      exact (Except.ok.inj hok).symm
  | succ rounds ih =>
      rcases hamount.lt_or_eq with hlt | rfl
      · obtain ⟨hle, -⟩ := chunk_le fPos (count - amount)
        have hpos : 0 < chunk fPos (count - amount) := chunk_pos (by omega)
        rw [readLoop, if_pos hlt] at hok
        dsimp only at hok
        split_ifs at hok
        split at hok
        · cases hok
        · exact ih _ _ _ (by omega) (by omega) hok
      · rw [readLoop_done] at hok
        exact (Except.ok.inj hok).symm

/-! ## The end of the file -/

theorem readCount_of_le {size : Nat} (hle : fPos ≤ size) (hsize : size < 2 ^ 32) :
    readCount size count fPos = min count (size - fPos) := by
  unfold readCount
  split_ifs with hlt
  · rw [min_eq_right (by omega)]
    omega
  · rw [min_eq_left (by omega)]

/-- Beyond the end the subtraction wraps around. -/
theorem readCount_of_lt {size : Nat} (hlt : size < fPos) (hsize : size < 2 ^ 32) :
    readCount size count fPos = 0 ↔ fPos % 2 ^ 32 = size := by
  unfold readCount
  rw [if_pos (by omega)]
  omega

theorem ospfsRead_eq (h : Readable g m i) :
    ospfsRead m i space count fPos =
      readLoop m (inodeAt i) space (readCount (oiSize m (inodeAt i)) count fPos)
        (readCount (oiSize m (inodeAt i)) count fPos) 0 fPos [] := by
  unfold ospfsRead
  rw [h.fits.ospfsInode h.lt]

theorem ospfsRead_of_le (h : Readable g m i) (hspace : ∀ t < count, space t = true)
    (hle : fPos ≤ oiSize m (inodeAt i)) :
    ospfsRead m i space count fPos =
      (.ok (min count (oiSize m (inodeAt i) - fPos)),
        fPos + min count (oiSize m (inodeAt i) - fPos),
        (List.range (min count (oiSize m (inodeAt i) - fPos))).map (served m i fPos)) := by
  rw [ospfsRead_eq h, readCount_of_le hle (load32_lt m _)]
  exact readLoop_served h (fun t ht => hspace t (by omega)) _ 0 fPos [] (Nat.zero_le _) le_rfl
    (by omega)

/--
A read stops at the end of the file, unless its position is beyond the end and not
a multiple of `2 ^ 32` away from it.
-/
theorem ospfsRead_clipped_iff (h : Readable g m i) (hspace : ∀ t < count, space t = true) :
    (ospfsRead m i space count fPos).1 = .ok (min count (oiSize m (inodeAt i) - fPos)) ∧
        (ospfsRead m i space count fPos).2.1 =
          fPos + min count (oiSize m (inodeAt i) - fPos) ↔
      fPos ≤ oiSize m (inodeAt i) ∨ fPos % 2 ^ 32 = oiSize m (inodeAt i) := by
  have hsize : oiSize m (inodeAt i) < 2 ^ 32 := load32_lt m _
  rcases Nat.lt_or_ge (oiSize m (inodeAt i)) fPos with hlt | hle
  · have hzero : min count (oiSize m (inodeAt i) - fPos) = 0 := by omega
    have hcount : readCount (oiSize m (inodeAt i)) count fPos = 0 ↔
        fPos % 2 ^ 32 = oiSize m (inodeAt i) := readCount_of_lt hlt hsize
    rw [hzero, ospfsRead_eq h]
    constructor
    · rintro ⟨hok, -⟩
      have hresult := readLoop_count _ 0 fPos [] (Nat.zero_le _) le_rfl hok
      exact .inr (hcount.1 hresult.symm)
    · rintro (hle | hwrap)
      · omega
      · rw [hcount.2 hwrap]
        exact ⟨rfl, rfl⟩
  · rw [ospfsRead_of_le h hspace hle]
    exact iff_of_true ⟨rfl, rfl⟩ (.inl hle)

/-- Beyond the end there is no block. -/
theorem ospfsRead_beyond (h : Readable g m i) (hlt : oiSize m (inodeAt i) < fPos)
    (hlow : oiSize m (inodeAt i) < fPos % 2 ^ 32) :
    ospfsRead m i space count fPos = (.error .eio, fPos, []) := by
  have hcount : readCount (oiSize m (inodeAt i)) count fPos ≠ 0 := fun hzero =>
    absurd ((readCount_of_lt hlt (load32_lt m _)).1 hzero) hlow.ne'
  have hblock : ospfsInodeBlockno m (inodeAt i) (fPos % 2 ^ 32) = 0 := if_pos (.inl hlow.le)
  obtain ⟨c, hc⟩ := Nat.exists_eq_succ_of_ne_zero hcount
  rw [ospfsRead_eq h, hc, readLoop, if_pos (Nat.succ_pos c)]
  dsimp only
  rw [if_pos hblock]

theorem WellFormed.readable {own : Nat → Prop} (h : WellFormed g m own i) : Readable g m i where
  fits := h.stored.fits
  lt := h.lt
  block off hoff := by
    have hfile := h.stored.file i h.owner
    rw [blocknoOf_eq hfile.ftype hoff]
    have hthree := (h.isData (hfile.inUse (hfile.lt_blocks hoff))).three_lt
    unfold blockNumber
    omega

theorem oneFile_readable (hn : n ≤ 2826) (used : Nat) (hused : 16 + n ≤ used) :
    Readable oneFileGeometry (oneFile n used) 2 :=
  (oneFile_wellFormed hn hused).readable

theorem oiSize_oneFile (hn : n ≤ 2826) (used : Nat) :
    oiSize (oneFile n used) (inodeAt 2) = 1024 * n := by
  refine (load32_oneFile n used (w := 800) (by decide)).trans ?_
  rw [pointerWord, if_neg (by decide), if_pos rfl, Nat.mod_eq_of_lt (by omega)]

theorem ospfsRead_clipped_iff_end :
    (ospfsRead (oneFile 1 64) 2 (fun _ => true) 100 1000).1 =
          .ok (min 100 (oiSize (oneFile 1 64) (inodeAt 2) - 1000)) ∧
        (ospfsRead (oneFile 1 64) 2 (fun _ => true) 100 1000).2.1 =
          1000 + min 100 (oiSize (oneFile 1 64) (inodeAt 2) - 1000) ↔
      1000 ≤ oiSize (oneFile 1 64) (inodeAt 2) ∨
        1000 % 2 ^ 32 = oiSize (oneFile 1 64) (inodeAt 2) :=
  ospfsRead_clipped_iff (oneFile_readable (by decide) 64 (by decide)) fun _ _ => rfl

/-- A read one byte beyond the end of a file fails. -/
theorem readBeyond_not_clipped :
    oiSize (oneFile 1 64) (inodeAt 2) = 1024 ∧
      (ospfsRead (oneFile 1 64) 2 (fun _ => true) 1 1025).1 = .error .eio := by
  have hsize : oiSize (oneFile 1 64) (inodeAt 2) = 1024 := oiSize_oneFile (by decide) 64
  refine ⟨hsize, ?_⟩
  rw [ospfsRead_beyond (oneFile_readable (by decide) 64 (by decide)) (by rw [hsize]; decide)
    (by rw [hsize]; decide)]

/-! ## Reading to the end -/

/-- The bytes of a file. -/
def fileBytes (m : Memory) (i : Nat) : List UInt8 :=
  (List.range (oiSize m (inodeAt i))).map (content m i)

/-- The position and all bytes after `k` calls for `cs 0, cs 1, …` bytes. -/
def readCalls (m : Memory) (i : Nat) (cs : Nat → Nat) : Nat → Except Errno (Nat × List UInt8)
  | 0 => .ok (0, [])
  | k + 1 =>
      match readCalls m i cs k with
      | .error errno => .error errno
      | .ok (fPos, bytes) =>
          match ospfsRead m i (fun _ => true) (cs k) fPos with
          | (.error errno, _, _) => .error errno
          | (.ok _, fPos, got) => .ok (fPos, bytes ++ got)

/-- Where call `k` starts, as long as the file goes on. -/
def startOf (cs : Nat → Nat) (k : Nat) : Nat := ∑ j ∈ Finset.range k, cs j

/--
In the block in which it starts, the call finds what is at the beginning of the
block.
-/
def SameAtStart (m : Memory) (i : Nat) (cs : Nat → Nat) (k : Nat) : Prop :=
  ∀ t < cs k, startOf cs k + t < oiSize m (inodeAt i) →
    (startOf cs k + t) / 1024 = startOf cs k / 1024 →
    content m i (1024 * (startOf cs k / 1024) + t) = content m i (startOf cs k + t)

theorem sameAtStart_iff (k : Nat) : SameAtStart m i cs k ↔
    ∀ t < min (cs k) (oiSize m (inodeAt i) - startOf cs k),
      served m i (startOf cs k) t = content m i (startOf cs k + t) := by
  constructor
  · intro h t ht
    unfold served
    split_ifs with hblock
    · exact h t (by omega) (by omega) hblock
    · rfl
  · intro h t ht hsize hblock
    have hserved := h t (by omega)
    rwa [served, if_pos hblock] at hserved

theorem startOf_succ (cs : Nat → Nat) (k : Nat) : startOf cs (k + 1) = startOf cs k + cs k :=
  Finset.sum_range_succ _ _

/-- One more call. -/
theorem readCalls_succ (h : Readable g m i) {k : Nat} {bytes : List UInt8} {p : Nat}
    (hcalls : readCalls m i cs k = .ok (p, bytes)) (hp : p ≤ oiSize m (inodeAt i)) :
    readCalls m i cs (k + 1) = .ok (p + min (cs k) (oiSize m (inodeAt i) - p),
      bytes ++ (List.range (min (cs k) (oiSize m (inodeAt i) - p))).map (served m i p)) := by
  have hread : ospfsRead m i (fun _ => true) (cs k) p = _ :=
    ospfsRead_of_le h (fun _ _ => rfl) hp
  simp only [readCalls, hcalls, hread]

theorem map_range_inj {α : Type} {f f' : Nat → α} :
    (List.range n).map f = (List.range n).map f' ↔ ∀ t < n, f t = f' t := by
  rw [List.map_inj_left]
  exact forall_congr' fun t => by rw [List.mem_range]

/-- The calls go on to the end of the file; the bytes are right if those of each call are. -/
theorem readCalls_eq (h : Readable g m i) (cs : Nat → Nat) (k : Nat) :
    ∃ bytes, readCalls m i cs k = .ok (min (startOf cs k) (oiSize m (inodeAt i)), bytes) ∧
      bytes.length = min (startOf cs k) (oiSize m (inodeAt i)) ∧
      (bytes = (List.range (min (startOf cs k) (oiSize m (inodeAt i)))).map (content m i) ↔
        ∀ j < k, SameAtStart m i cs j) := by
  induction k with
  | zero => exact ⟨[], by simp [readCalls, startOf], by simp [startOf], by simp [startOf]⟩
  | succ k ih =>
      obtain ⟨bytes, hcalls, hlength, hbytes⟩ := ih
      have hnext := readCalls_succ h hcalls (min_le_right _ _)
      have hall : (∀ j < k + 1, SameAtStart m i cs j) ↔
          (∀ j < k, SameAtStart m i cs j) ∧ SameAtStart m i cs k := Nat.forall_lt_succ_right
      rw [hall, startOf_succ]
      rcases Nat.le_total (startOf cs k) (oiSize m (inodeAt i)) with hle | hge
      · rw [min_eq_left hle] at hnext hlength hbytes
        have hend : startOf cs k + min (cs k) (oiSize m (inodeAt i) - startOf cs k) =
            min (startOf cs k + cs k) (oiSize m (inodeAt i)) := by omega
        rw [hend] at hnext
        refine ⟨_, hnext, ?_, ?_⟩
        · rw [List.length_append, hlength, List.length_map, List.length_range, hend]
        · have hsplit := map_range_append (content m i)
            (show startOf cs k ≤ min (startOf cs k + cs k) (oiSize m (inodeAt i)) by omega)
          have hrest : min (startOf cs k + cs k) (oiSize m (inodeAt i)) - startOf cs k =
              min (cs k) (oiSize m (inodeAt i) - startOf cs k) := by omega
          rw [hrest] at hsplit
          rw [← hsplit, sameAtStart_iff, ← map_range_inj, ← hbytes]
          constructor
          · intro heq
            exact List.append_inj heq (by rw [hlength, List.length_map, List.length_range])
          · rintro ⟨hfirst, hlast⟩
            rw [← hfirst, hlast]
      · have hend : min (startOf cs k + cs k) (oiSize m (inodeAt i)) =
            min (startOf cs k) (oiSize m (inodeAt i)) := by omega
        have hnone : min (cs k) (oiSize m (inodeAt i) -
            min (startOf cs k) (oiSize m (inodeAt i))) = 0 := by omega
        rw [hnone, List.range_zero, List.map_nil, List.append_nil, Nat.add_zero] at hnext
        rw [hend]
        refine ⟨bytes, hnext, hlength, hbytes.trans ?_⟩
        refine (and_iff_left fun t ht hsize => ?_).symm
        omega

theorem le_startOf (hpos : ∀ k, 0 < cs k) (k : Nat) : k ≤ startOf cs k := by
  induction k with
  | zero => exact Nat.zero_le _
  | succ k ih =>
      have hk := hpos k
      rw [startOf_succ]
      omega

theorem sameAtStart_of_readCalls (h : Readable g m i) {k : Nat}
    (hdone : readCalls m i cs k = .ok (oiSize m (inodeAt i), fileBytes m i)) (j : Nat) :
    SameAtStart m i cs j := by
  obtain ⟨bytes, hcalls, -, hbytes⟩ := readCalls_eq h cs k
  rw [hdone, Except.ok.injEq, Prod.mk.injEq] at hcalls
  obtain ⟨hend, rfl⟩ := hcalls
  rw [← hend] at hbytes
  rcases Nat.lt_or_ge j k with hlt | hge
  · exact hbytes.1 rfl j hlt
  · have hmono : startOf cs k ≤ startOf cs j :=
      Finset.sum_le_sum_of_subset (Finset.range_mono hge)
    intro t ht hsize
    omega

/--
Reading to the end gives the bytes of the file exactly if every call finds in the
block in which it starts the same bytes as at the beginning of that block.
-/
theorem readCalls_fileBytes_iff (h : Readable g m i) (hpos : ∀ k, 0 < cs k) :
    (∃ k, readCalls m i cs k = .ok (oiSize m (inodeAt i), fileBytes m i)) ↔
      ∀ k, SameAtStart m i cs k := by
  constructor
  · rintro ⟨k, hdone⟩
    exact sameAtStart_of_readCalls h hdone
  · intro hsame
    obtain ⟨bytes, hcalls, -, hbytes⟩ := readCalls_eq h cs (oiSize m (inodeAt i))
    rw [min_eq_right (le_startOf hpos _)] at hcalls hbytes
    refine ⟨oiSize m (inodeAt i), ?_⟩
    rw [hcalls, hbytes.2 fun j _ => hsame j]
    rfl

/-- Reads of whole blocks are right. -/
theorem readCalls_fileBytes_iff_blocks :
    ∃ k, readCalls (oneFile 2 64) 2 (fun _ => 1024) k =
      .ok (oiSize (oneFile 2 64) (inodeAt 2), fileBytes (oneFile 2 64) 2) := by
  refine (readCalls_fileBytes_iff (oneFile_readable (by decide) 64 (by decide))
    fun _ => by decide).2 fun k t _ _ _ => ?_
  have hstart : startOf (fun _ => 1024) k = 1024 * k := by
    simp [startOf, Nat.mul_comm]
  rw [hstart, Nat.mul_div_cancel_left k (by decide)]

/-- A file of one block that begins with the bytes 0 and 1. -/
def twoBytes : Memory := copy (oneFile 1 64) 16385 [1]

theorem twoBytes_load {a : Nat} (ha : a ≤ 16380) : load32 twoBytes a = load32 (oneFile 1 64) a :=
  (copy_changesOnly _ 16385 [1]).load32 fun t ht hmem => by
    simp only [List.length_singleton, Set.mem_Ico] at hmem
    omega

theorem twoBytes_size : oiSize twoBytes (inodeAt 2) = 1024 :=
  (twoBytes_load (by decide)).trans (oiSize_oneFile (by decide) 64)

theorem twoBytes_blockno {off : Nat} (hoff : off < 1024) : blocknoOf twoBytes 2 off = 16 := by
  have hftype : oiFtype twoBytes (inodeAt 2) ≠ ftypeSymlink := by
    rw [show oiFtype twoBytes (inodeAt 2) = ftypeReg from
      (twoBytes_load (by decide)).trans (oneFile_ftype 1 64)]
    decide
  rw [blocknoOf, ospfsInodeBlockno_eq (hoff.trans_eq twoBytes_size.symm) hftype,
    Nat.div_eq_of_lt hoff]
  have hvalid : (Slot.direct 0).Valid := Nat.zero_lt_succ 9
  have htarget : (Slot.direct 0).target (oneFile 1 64) (inodeAt 2) = 16 :=
    (target_oneFile (by decide) hvalid fun _ heq => by cases heq).1 ⟨hvalid, Nat.zero_lt_one⟩
  exact (twoBytes_load (by decide)).trans htarget

theorem twoBytes_content {off : Nat} (hoff : off < 1024) :
    content twoBytes 2 off = twoBytes (16384 + off) := by
  rw [content, address_eq, twoBytes_blockno hoff, Nat.mod_eq_of_lt hoff]
  rfl

theorem twoBytes_readable : Readable oneFileGeometry twoBytes 2 where
  fits := by
    have hfits := oneFile_fits 1 64
    exact ⟨(twoBytes_load (by decide)).trans hfits.nblocks,
      (twoBytes_load (by decide)).trans hfits.ninodes,
      (twoBytes_load (by decide)).trans hfits.firstinob⟩
  lt := by decide
  block off hoff := by
    rw [twoBytes_size] at hoff
    rw [twoBytes_blockno hoff]
    decide

/-- Byte by byte the first byte of a block is read again and again. -/
theorem byteReads_not_fileBytes :
    ¬ ∃ k, readCalls twoBytes 2 (fun _ => 1) k =
      .ok (oiSize twoBytes (inodeAt 2), fileBytes twoBytes 2) := by
  rintro ⟨k, hdone⟩
  have hsame := sameAtStart_of_readCalls twoBytes_readable hdone 1 0 (by decide)
    (by rw [twoBytes_size]; decide) rfl
  have hstart : startOf (fun _ => 1) 1 = 1 := rfl
  rw [hstart] at hsame
  have hfirst : content twoBytes 2 0 = 0 := (twoBytes_content (by decide)).trans (by decide)
  have hsecond : content twoBytes 2 1 = 1 := (twoBytes_content (by decide)).trans (by decide)
  exact absurd (hfirst.symm.trans (hsame.trans hsecond)) (by decide)

end Cs111Labs.Ospfs
