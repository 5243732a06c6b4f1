import Cs111Labs.Ospfs.FileReads

/-!
# Overwriting a part of a file

A write within the size of a file changes the bytes of the range and no other byte
of the disk, whatever else is on the disk.
-/

namespace Cs111Labs.Ospfs

open Foundation Memory

variable {g : Geometry} {m m' : Memory} {i off off' : Nat} {R : Set Nat}
  {buffer : UserBuffer}

/-- The blocks of a file are data blocks, each is there once and none holds its pointers. -/
structure Mapped (g : Geometry) (m : Memory) (i : Nat) : Prop where
  fits : g.Fits m
  lt : i < g.ninodes
  data : ∀ off < oiSize m (inodeAt i), g.IsData (blocknoOf m i off)
  once : ∀ off < oiSize m (inodeAt i), ∀ off' < oiSize m (inodeAt i),
    blocknoOf m i off = blocknoOf m i off' → off / 1024 = off' / 1024
  index : ∀ off < oiSize m (inodeAt i), ∀ s : Slot, s.IsMeta → s.InUse (blockCount m i) →
    ospfsBlock (s.target m (inodeAt i)) ≠ ospfsBlock (blocknoOf m i off)

namespace Mapped

theorem readable (h : Mapped g m i) : Readable g m i where
  fits := h.fits
  lt := h.lt
  block off hoff := by
    have hthree := (h.data off hoff).three_lt
    omega

/-- A file has no more blocks than the disk. -/
theorem size_le (h : Mapped g m i) : oiSize m (inodeAt i) ≤ 8388608 := by
  have hblocks := g.nblocks_le
  have hcard := Finset.card_le_card_of_injOn (fun k => blocknoOf m i (1024 * k))
    (s := Finset.range ((oiSize m (inodeAt i) + 1023) / 1024)) (t := Finset.range g.nblocks)
    (fun k hk => by
      have hlt := Finset.mem_range.1 (Finset.mem_coe.1 hk)
      exact Finset.mem_coe.2 (Finset.mem_range.2 (h.data _ (by omega)).2))
    (fun k hk l hl heq => by
      have hlt := Finset.mem_range.1 (Finset.mem_coe.1 hk)
      have hlt' := Finset.mem_range.1 (Finset.mem_coe.1 hl)
      have hsame := h.once _ (by omega) _ (by omega) heq
      omega)
  rw [Finset.card_range, Finset.card_range] at hcard
  omega

theorem inUse (h : Mapped g m i) (hoff : off < oiSize m (inodeAt i)) :
    (Slot.ofIndex (off / 1024)).InUse (blockCount m i) := by
  have hsize := h.size_le
  have hcount : blockCount m i = (oiSize m (inodeAt i) + 1023) / 1024 := by
    unfold blockCount ospfsSize2nblocks
    omega
  refine Slot.ofIndex_inUse (by omega) ?_
  unfold Slot.maxfileblks
  omega

theorem ftype (h : Mapped g m i) (hoff : off < oiSize m (inodeAt i)) :
    oiFtype m (inodeAt i) ≠ ftypeSymlink := fun hsymlink => by
  have hthree := (h.data off hoff).three_lt
  have hzero : blocknoOf m i off = 0 := if_pos (.inr hsymlink)
  omega

theorem blocknoOf_eq (h : Mapped g m i) (hoff : off < oiSize m (inodeAt i)) :
    blocknoOf m i off = (Slot.ofIndex (off / 1024)).target m (inodeAt i) :=
  ospfsInodeBlockno_eq hoff (h.ftype hoff)

theorem address_eq (h : Mapped g m i) (hoff : off < oiSize m (inodeAt i)) :
    address m i off = 1024 * blocknoOf m i off + off % 1024 := by
  rw [Ospfs.address_eq, (h.data off hoff).block]

/-! ## What a write leaves alone -/

/-- The bytes of the file are behind the inodes. -/
theorem frame (h : Mapped g m i) (hw : Writes m i R m') {a : Nat}
    (ha : a < 1024 * g.firstData) : m' a = m a := by
  refine hw.changes a ?_
  rintro ⟨off, hoff, heq⟩
  have hfirst := (h.data off (hw.size off hoff)).1
  rw [h.address_eq (hw.size off hoff)] at heq
  omega

theorem field (h : Mapped g m i) (hw : Writes m i R m') {k : Nat} (hk : k ≤ 60) :
    load32 m' (inodeAt i + k) = load32 m (inodeAt i + k) := by
  have hlt := h.lt
  refine load32_congr fun d hd => h.frame hw ?_
  unfold inodeAt Geometry.firstData
  omega

theorem pointer (h : Mapped g m i) (hw : Writes m i R m') {s : Slot} (hs : s.IsMeta)
    (huse : s.InUse (blockCount m i)) {k : Nat} (hk : k < 256) :
    load32 m' (ospfsBlock (s.target m (inodeAt i)) + 4 * k) =
      load32 m (ospfsBlock (s.target m (inodeAt i)) + 4 * k) := by
  refine hw.changes.load32 fun d hd => ?_
  rintro ⟨off, hoff, heq⟩
  have hne := h.index off (hw.size off hoff) s hs huse
  rw [Ospfs.address_eq] at heq
  unfold ospfsBlock at hne heq
  omega

theorem target_eq (h : Mapped g m i) (hw : Writes m i R m') {s : Slot}
    (hs : s.InUse (blockCount m i)) : s.target m' (inodeAt i) = s.target m (inodeAt i) := by
  have hindirect : oiIndirect m' (inodeAt i) = oiIndirect m (inodeAt i) :=
    h.field hw (by decide)
  have hindirect2 : oiIndirect2 m' (inodeAt i) = oiIndirect2 m (inodeAt i) :=
    h.field hw (by decide)
  cases s with
  | direct k =>
      have hk := hs.1
      have hdirect := h.field hw (show 16 + 4 * k ≤ 60 by omega)
      simpa only [Slot.target, oiDirect, ← Nat.add_assoc] using hdirect
  | indirect => exact hindirect
  | indirect2 => exact hindirect2
  | single k =>
      have huse : Slot.indirect.InUse (blockCount m i) := hs.parent rfl
      have hword := h.pointer hw (s := .indirect) trivial huse hs.1
      simpa only [Slot.target, hindirect] using hword
  | outer l =>
      have huse : Slot.indirect2.InUse (blockCount m i) := hs.parent rfl
      have hword := h.pointer hw (s := .indirect2) trivial huse hs.1
      simpa only [Slot.target, hindirect2] using hword
  | double l k =>
      have houter : (Slot.outer l).InUse (blockCount m i) := hs.parent rfl
      have huse : Slot.indirect2.InUse (blockCount m i) := houter.parent rfl
      have hword := h.pointer hw (s := .indirect2) trivial huse hs.1
      have hword' := h.pointer hw (s := .outer l) trivial houter hs.2.1
      simp only [Slot.target] at hword hword'
      simp only [Slot.target, hindirect2, hword, hword']

/-- Writes to the file keep the map of its blocks. -/
theorem placed (g : Geometry) (i : Nat) : Placed i (Mapped g · i) := by
  have hsize : ∀ {m m' : Memory} {R : Set Nat}, Mapped g m i → Writes m i R m' →
      oiSize m' (inodeAt i) = oiSize m (inodeAt i) := fun h hw => h.field hw (Nat.zero_le 60)
  have hcount : ∀ {m m' : Memory} {R : Set Nat}, Mapped g m i → Writes m i R m' →
      blockCount m' i = blockCount m i := fun h hw => by
    unfold blockCount
    rw [hsize h hw]
  have hblockno : ∀ {m m' : Memory} {R : Set Nat} {off : Nat}, Mapped g m i →
      Writes m i R m' → off < oiSize m (inodeAt i) →
      Ospfs.blocknoOf m' i off = Ospfs.blocknoOf m i off := fun {m m' R off} h hw hoff => by
    have hftype : oiFtype m' (inodeAt i) ≠ ftypeSymlink := by
      rw [show oiFtype m' (inodeAt i) = oiFtype m (inodeAt i) from h.field hw (by decide)]
      exact h.ftype hoff
    rw [h.blocknoOf_eq hoff, ← h.target_eq hw (h.inUse hoff)]
    exact ospfsInodeBlockno_eq (hoff.trans_eq (hsize h hw).symm) hftype
  refine ⟨fun {m m' R} h hw => ?_, hsize, hblockno, fun {m off off'} h hoff hoff' _ heq => ?_⟩
  · refine ⟨h.fits.changesOnly hw.changes ?_, h.lt, ?_, ?_, ?_⟩
    · rintro a ⟨off, hoff, rfl⟩ hsuper
      have hthree := (h.data off (hw.size off hoff)).three_lt
      rw [h.address_eq (hw.size off hoff)] at hsuper
      simp only [blockBytes, Set.mem_Ico] at hsuper
      omega
    · intro off hoff
      rw [hsize h hw] at hoff
      rw [hblockno h hw hoff]
      exact h.data off hoff
    · intro off hoff off' hoff' heq
      rw [hsize h hw] at hoff hoff'
      rw [hblockno h hw hoff, hblockno h hw hoff'] at heq
      exact h.once off hoff off' hoff' heq
    · intro off hoff s hs huse
      rw [hsize h hw] at hoff
      rw [hcount h hw] at huse
      rw [h.target_eq hw huse, hblockno h hw hoff]
      exact h.index off hoff s hs huse
  · rw [h.address_eq hoff, h.address_eq hoff'] at heq
    have hsame := h.once off hoff off' hoff' (by omega)
    omega

end Mapped

theorem WellFormed.mapped {own : Nat → Prop} (h : WellFormed g m own i) : Mapped g m i := by
  have hfile := h.stored.file i h.owner
  have huse : ∀ {off}, off < oiSize m (inodeAt i) →
      (Slot.ofIndex (off / 1024)).InUse (blockCount m i) := fun hoff =>
    hfile.inUse (hfile.lt_blocks hoff)
  have hblock : ∀ {off}, off < oiSize m (inodeAt i) →
      blocknoOf m i off = (Slot.ofIndex (off / 1024)).target m (inodeAt i) := fun hoff =>
    blocknoOf_eq hfile.ftype hoff
  have hinjective := (Reshaped.refl h).spans.injective
  refine ⟨h.stored.fits, h.lt, fun off hoff => ?_, fun off hoff off' hoff' heq => ?_,
    fun off hoff s hs hs' heq => ?_⟩
  · rw [hblock hoff]
    exact h.isData (huse hoff)
  · rw [hblock hoff, hblock hoff'] at heq
    exact Slot.ofIndex_injective (hinjective _ _ (huse hoff) (huse hoff') heq)
  · rw [hblock hoff, (h.isData hs').block, (h.isData (huse hoff)).block] at heq
    have hslot := hinjective _ _ hs' (huse hoff) (Nat.eq_of_mul_eq_mul_left (by decide) heq)
    rw [hslot] at hs
    exact Slot.ofIndex_not_isMeta _ hs

/-! ## The loop does not fail -/

theorem copyFromUser_readable {dst start n : Nat} (h : ∀ t < n, (buffer (start + t)).isSome) :
    (copyFromUser m dst buffer start n).1 = true := by
  have hall : ((List.range n).map fun t => buffer (start + t)).takeWhile Option.isSome =
      (List.range n).map fun t => buffer (start + t) := by
    refine List.takeWhile_eq_self_iff.2 fun byte hbyte => ?_
    obtain ⟨t, ht, rfl⟩ := List.mem_map.1 hbyte
    exact h t (List.mem_range.1 ht)
  simp only [copyFromUser, hall, List.length_map, List.length_range, decide_true]

theorem writeLoop_ok {count : Nat} (hbuffer : ∀ t < count, (buffer t).isSome)
    (rounds amount fPos : Nat) (h : Mapped g m i) (hamount : amount ≤ count)
    (hrounds : count - amount ≤ rounds)
    (hsize : fPos + (count - amount) ≤ oiSize m (inodeAt i)) :
    (writeLoop (inodeAt i) buffer count rounds amount fPos m).1 = .ok count := by
  induction rounds generalizing m amount fPos with
  | zero =>
      obtain rfl : amount = count := by omega
      rw [writeLoop_done]
  | succ rounds ih =>
      rcases hamount.lt_or_eq with hlt | rfl
      · have hlimit := h.size_le
        have hthree := (h.data fPos (by omega)).three_lt
        have hblock : blocknoOf m i fPos ≠ 0 := by omega
        obtain ⟨hle, -⟩ := chunk_le fPos (count - amount)
        have hpos : 0 < chunk fPos (count - amount) := chunk_pos (by omega)
        have hw := writes_of_copy buffer amount hblock (by omega) hsize
        rw [writeLoop_round hlt (by omega), if_neg hblock,
          if_pos (copyFromUser_readable fun t ht => hbuffer (amount + t) (by omega))]
        refine ih _ _ ((Mapped.placed g i).keep h hw) (by omega) (by omega) ?_
        rw [(Mapped.placed g i).size h hw]
        omega
      · rw [writeLoop_done]

/-- A write within the size of a file is exact, and changes no other byte of the disk. -/
theorem ospfsWrite_exact (h : Mapped g m i) {count fPos : Nat}
    (hbuffer : ∀ t < count, (buffer t).isSome)
    (hsize : fPos + count ≤ oiSize m (inodeAt i)) :
    ∃ m', ospfsWrite m i false buffer count fPos = (.ok count, fPos + count, m') ∧
      (∀ t < count, some (content m' i (fPos + t)) = buffer t) ∧
      ∀ a, (∀ t < count, a ≠ address m i (fPos + t)) → m' a = m a := by
  have hcall : ospfsWrite m i false buffer count fPos =
      writeLoop (inodeAt i) buffer count count 0 fPos m := by
    rw [ospfsWrite_eq h.fits h.lt, if_neg]
    · rfl
    · change ¬ count + fPos > _
      omega
  have hok := writeLoop_ok hbuffer count 0 fPos h (Nat.zero_le _) le_rfl hsize
  have hwritten : Written buffer count 0 fPos m i
      (writeLoop (inodeAt i) buffer count count 0 fPos m) :=
    writeLoop_written (Mapped.placed g i) count 0 fPos h (Nat.zero_le count) le_rfl hsize
  obtain ⟨R, -, hwrites, hresult⟩ := hwritten
  obtain ⟨-, hpos, rfl, -, hbytes⟩ := hresult count hok
  rw [← hcall] at hok hpos hwrites hbytes
  refine ⟨_, Prod.ext hok (Prod.ext hpos rfl), fun t ht => ?_, fun a ha => ?_⟩
  · have hbyte := hbytes t ht
    rw [Nat.zero_add] at hbyte
    rw [hbyte]
    obtain ⟨byte, hsome⟩ := Option.isSome_iff_exists.1 (hbuffer t ht)
    rw [hsome]
    rfl
  · refine hwrites.changes a ?_
    rintro ⟨off, hoff, heq⟩
    obtain ⟨hlo, hhi⟩ := Set.mem_Ico.1 hoff
    refine ha (off - fPos) (by omega) ?_
    rwa [Nat.add_sub_cancel' hlo]

/-- A write across the border to the first block below the indirect block. -/
theorem ospfsWrite_exact_indirect :
    ∃ m', ospfsWrite (oneFile 11 64) 2 false (fun t => some (UInt8.ofNat t)) 5 10238 =
        (.ok 5, 10243, m') ∧
      (∀ t < 5, some (content m' 2 (10238 + t)) = some (UInt8.ofNat t)) ∧
      ∀ a, (∀ t < 5, a ≠ address (oneFile 11 64) 2 (10238 + t)) → m' a = oneFile 11 64 a :=
  ospfsWrite_exact (oneFile_wellFormed (by decide) (by decide)).mapped (fun _ _ => rfl) (by
    rw [oiSize_oneFile (by decide)]
    decide)

end Cs111Labs.Ospfs
