import Cs111Labs.Ospfs.DirectFiles

/-!
# Stored files

The invariant of the disk for a set `own` of inodes that own blocks, and what
the bytes of one file have to do with changes elsewhere.  If `lossless` holds,
files are only resized within their direct blocks and no block is lost.
-/

namespace Cs111Labs.Ospfs

open Foundation Memory

variable {lossless : Prop} {g : Geometry} {m m' m'' : Memory} {own own' : Nat → Prop}
  {a b i j off : Nat} {S : Set Nat}

/-- The address of a byte of a file. -/
def address (m : Memory) (i off : Nat) : Nat := ospfsInodeData m (inodeAt i) off

/-- The byte found by `ospfs_inode_data`. -/
def content (m : Memory) (i off : Nat) : UInt8 := m (address m i off)

def blocknoOf (m : Memory) (i off : Nat) : Nat := ospfsInodeBlockno m (inodeAt i) off

structure StoredFile (lossless : Prop) (m : Memory) (i : Nat) : Prop where
  ftype : oiFtype m (inodeAt i) ≠ ftypeSymlink
  size_le : oiSize m (inodeAt i) ≤ 1024 * Slot.maxfileblks
  direct : ∀ k < 10, k < blockCount m i → oiDirect m (inodeAt i) k ≠ 0
  indirect : blockCount m i ≤ 10 → oiIndirect m (inodeAt i) = 0
  filled : lossless ∨ oiFtype m (inodeAt i) = ftypeDir → Filled m i
  pastZero : lossless → PastZero m i

structure Stored (lossless : Prop) (g : Geometry) (m : Memory) (own : Nat → Prop) :
    Prop where
  fits : g.Fits m
  safe : Safe g m own
  complete : lossless → ∀ b, g.IsData b →
    (ledger g m own).Free b ∨ ∃ p, (ledger g m own).Holds p b
  boot : ∀ a < 1024, m a = 0
  owners : Owners g own
  file : ∀ i, own i → StoredFile lossless m i

theorem Stored.balanced (h : Stored lossless g m own) (hl : lossless) :
    Balanced g m own :=
  ⟨h.safe, h.complete hl⟩

/-! ## Bytes of blocks -/

/-- The block of a byte, also of one between the size and the end of the last block. -/
def blockNumber (m : Memory) (i off : Nat) : Nat :=
  (Slot.ofIndex (off / 1024)).target m (inodeAt i)

def blockAddress (m : Memory) (i off : Nat) : Nat :=
  ospfsBlock (blockNumber m i off) + off % 1024

def blockByte (m : Memory) (i off : Nat) : UInt8 := m (blockAddress m i off)

theorem StoredFile.inUse (h : StoredFile lossless m i) (hoff : off < 1024 * blockCount m i) :
    (Slot.ofIndex (off / 1024)).InUse (blockCount m i) := by
  have hsize := h.size_le
  refine Slot.ofIndex_inUse (by omega) ?_
  unfold Slot.maxfileblks at *
  unfold blockCount ospfsSize2nblocks
  omega

theorem Stored.owns_block (h : Stored lossless g m own) (hown : own i)
    (hoff : off < 1024 * blockCount m i) (hpos : blockNumber m i off ≠ 0) :
    Owns m own (i, Slot.ofIndex (off / 1024)) (blockNumber m i off) :=
  ⟨hown, (h.file i hown).inUse hoff, rfl, .inl hpos⟩

theorem Stored.blockAddress_of_pos (h : Stored lossless g m own) (hown : own i)
    (hoff : off < 1024 * blockCount m i) (hpos : blockNumber m i off ≠ 0) :
    blockAddress m i off = 1024 * blockNumber m i off + off % 1024 := by
  have hdata : g.IsData _ := h.safe.held_mem _ _ (h.owns_block hown hoff hpos)
  rw [blockAddress, hdata.block]

theorem blockAddress_of_zero (hzero : blockNumber m i off = 0) :
    blockAddress m i off = off % 1024 := by
  rw [blockAddress, hzero]
  simp [ospfsBlock]

/-- A byte of a file is in a block of the file or in the boot sector. -/
theorem Stored.blockAddress_cases (h : Stored lossless g m own) (hown : own i)
    (hoff : off < 1024 * blockCount m i) :
    blockAddress m i off < 1024 ∨
      (Owns m own (i, Slot.ofIndex (off / 1024)) (blockNumber m i off) ∧
        blockAddress m i off ∈ blockBytes (blockNumber m i off)) := by
  by_cases hpos : blockNumber m i off = 0
  · rw [blockAddress_of_zero hpos]
    exact .inl (Nat.mod_lt _ (by decide))
  · refine .inr ⟨h.owns_block hown hoff hpos, ?_⟩
    rw [h.blockAddress_of_pos hown hoff hpos]
    simp only [blockBytes, Set.mem_Ico]
    omega

/-- Different bytes of files have different addresses. -/
theorem Stored.blockAddress_injective (h : Stored lossless g m own) (hi : own i) (hj : own j)
    {off' : Nat} (hoff : off < 1024 * blockCount m i) (hoff' : off' < 1024 * blockCount m j)
    (hpos : blockNumber m i off ≠ 0) (heq : blockAddress m i off = blockAddress m j off') :
    i = j ∧ off = off' := by
  have howns := h.owns_block hi hoff hpos
  have hdata : g.IsData (blockNumber m i off) := h.safe.held_mem _ _ howns
  have hthree := hdata.three_lt
  have haddress := h.blockAddress_of_pos hi hoff hpos
  have hpos' : blockNumber m j off' ≠ 0 := by
    intro hzero
    have hlow := blockAddress_of_zero hzero
    omega
  have haddress' := h.blockAddress_of_pos hj hoff' hpos'
  have hblock : blockNumber m i off = blockNumber m j off' := by omega
  have howns' := h.owns_block hj hoff' hpos'
  rw [← hblock] at howns'
  have hslot := h.safe.once _ _ _ howns howns'
  simp only [Prod.mk.injEq] at hslot
  have hindex := Slot.ofIndex_injective hslot.2
  exact ⟨hslot.1, by omega⟩

/-! ## Bytes below the size -/

theorem address_eq (m : Memory) (i off : Nat) :
    address m i off = ospfsBlock (blocknoOf m i off) + off % 1024 := rfl

theorem StoredFile.lt_blocks (h : StoredFile lossless m i)
    (hoff : off < oiSize m (inodeAt i)) : off < 1024 * blockCount m i := by
  have hsize := h.size_le
  unfold Slot.maxfileblks at hsize
  unfold blockCount ospfsSize2nblocks
  omega

theorem blocknoOf_eq (hftype : oiFtype m (inodeAt i) ≠ ftypeSymlink)
    (hoff : off < oiSize m (inodeAt i)) : blocknoOf m i off = blockNumber m i off :=
  ospfsInodeBlockno_eq hoff hftype

theorem address_eq_block (hftype : oiFtype m (inodeAt i) ≠ ftypeSymlink)
    (hoff : off < oiSize m (inodeAt i)) : address m i off = blockAddress m i off := by
  rw [address_eq, blocknoOf_eq hftype hoff]
  rfl

theorem content_eq_block (hftype : oiFtype m (inodeAt i) ≠ ftypeSymlink)
    (hoff : off < oiSize m (inodeAt i)) : content m i off = blockByte m i off := by
  rw [content, address_eq_block hftype hoff]
  rfl

theorem Stored.address_of_pos (h : Stored lossless g m own) (hown : own i)
    (hoff : off < oiSize m (inodeAt i)) (hpos : blocknoOf m i off ≠ 0) :
    address m i off = 1024 * blocknoOf m i off + off % 1024 := by
  have hfile := h.file i hown
  rw [blocknoOf_eq hfile.ftype hoff] at hpos ⊢
  rw [address_eq_block hfile.ftype hoff]
  exact h.blockAddress_of_pos hown (hfile.lt_blocks hoff) hpos

theorem blocknoOf_congr {off' : Nat} (hblock : off' / 1024 = off / 1024)
    (hoff : off < oiSize m (inodeAt i)) (hoff' : off' < oiSize m (inodeAt i)) :
    blocknoOf m i off' = blocknoOf m i off := by
  simp only [Ospfs.blocknoOf, ospfsInodeBlockno, hblock, ge_iff_le, not_le.2 hoff,
    not_le.2 hoff']

/-- The bytes of a block have consecutive addresses. -/
theorem address_add_of_block {n : Nat} (hblock : (off + n) / 1024 = off / 1024)
    (hoff : off + n < oiSize m (inodeAt i)) : address m i (off + n) = address m i off + n := by
  rw [address_eq, address_eq, blocknoOf_congr hblock (by omega) hoff]
  omega

theorem Stored.owns (h : Stored lossless g m own) (hown : own i)
    (hoff : off < oiSize m (inodeAt i)) (hpos : blocknoOf m i off ≠ 0) :
    Owns m own (i, Slot.ofIndex (off / 1024)) (blocknoOf m i off) := by
  have hfile := h.file i hown
  rw [blocknoOf_eq hfile.ftype hoff] at hpos ⊢
  exact h.owns_block hown (hfile.lt_blocks hoff) hpos

theorem Stored.address_injective (h : Stored lossless g m own) (hi : own i) (hj : own j)
    {off' : Nat} (hoff : off < oiSize m (inodeAt i)) (hoff' : off' < oiSize m (inodeAt j))
    (hpos : blocknoOf m i off ≠ 0) (heq : address m i off = address m j off') :
    i = j ∧ off = off' := by
  have hfile := h.file i hi
  have hfile' := h.file j hj
  rw [blocknoOf_eq hfile.ftype hoff] at hpos
  rw [address_eq_block hfile.ftype hoff, address_eq_block hfile'.ftype hoff'] at heq
  exact h.blockAddress_injective hi hj (hfile.lt_blocks hoff) (hfile'.lt_blocks hoff') hpos heq

/-! ## Changes that spare the pointers -/

theorem Spares.load (hchanges : ChangesOnly S m m') (hspares : Spares m own S i) {k : Nat}
    (hk : k = 0 ∨ 16 ≤ k ∧ k ≤ 60) :
    load32 m' (inodeAt i + k) = load32 m (inodeAt i + k) :=
  hchanges.load32 fun d hd hmem => hspares.inode _ hmem (by
    simp only [pointerBytes, Set.mem_ofPred_eq]
    omega)

theorem StoredFile.spared (h : StoredFile lossless m i) (hsafe : Safe g m own)
    (hown : own i) (hchanges : ChangesOnly S m m') (hspares : Spares m own S i)
    (hftype : oiFtype m' (inodeAt i) = oiFtype m (inodeAt i)) :
    StoredFile lossless m' i := by
  have hcount := hspares.blockCount_eq hchanges
  have hdirect : ∀ k < 10, oiDirect m' (inodeAt i) k = oiDirect m (inodeAt i) k := by
    intro k hk
    have hload := hspares.load hchanges (k := 16 + 4 * k) (.inr ⟨by omega, by omega⟩)
    simpa only [oiDirect, ← Nat.add_assoc] using hload
  refine ⟨?_, ?_, ?_, ?_, ?_, ?_⟩
  · rw [hftype]
    exact h.ftype
  · exact (hspares.load hchanges (k := 0) (.inl rfl)).trans_le h.size_le
  · intro k hk hlt
    rw [hdirect k hk]
    exact h.direct k hk (hlt.trans_eq hcount)
  · intro hle
    exact (hspares.load hchanges (k := 56) (.inr (by decide))).trans
      (h.indirect (hcount.symm.trans_le hle))
  · intro hor s huse
    rw [hcount] at huse
    rw [hspares.target_eq hsafe hchanges hown huse]
    exact h.filled (by rwa [hftype] at hor) s huse
  · intro hl k hk hle
    rw [hdirect k hk]
    exact h.pastZero hl k hk (hcount.symm.trans_le hle)

theorem Spares.blockAddress_eq (h : Stored lossless g m own) (hown : own i)
    (hchanges : ChangesOnly S m m') (hspares : Spares m own S i)
    (hoff : off < 1024 * blockCount m i) : blockAddress m' i off = blockAddress m i off := by
  unfold blockAddress blockNumber
  rw [hspares.target_eq h.safe hchanges hown ((h.file i hown).inUse hoff)]

theorem Spares.address_eq (h : Stored lossless g m own) (hown : own i)
    (hchanges : ChangesOnly S m m') (hspares : Spares m own S i)
    (hftype : oiFtype m' (inodeAt i) = oiFtype m (inodeAt i))
    (hoff : off < oiSize m (inodeAt i)) : address m' i off = address m i off := by
  have hfile := h.file i hown
  have hsize : oiSize m' (inodeAt i) = oiSize m (inodeAt i) :=
    hspares.load hchanges (k := 0) (.inl rfl)
  rw [address_eq_block (hftype ▸ hfile.ftype) (hoff.trans_eq hsize.symm),
    address_eq_block hfile.ftype hoff,
    hspares.blockAddress_eq h hown hchanges (hfile.lt_blocks hoff)]

theorem Spares.blockByte_eq (h : Stored lossless g m own) (hown : own i)
    (hchanges : ChangesOnly S m m') (hspares : Spares m own S i)
    (hoff : off < 1024 * blockCount m i) (hout : blockAddress m i off ∉ S) :
    blockByte m' i off = blockByte m i off := by
  unfold blockByte
  rw [hspares.blockAddress_eq h hown hchanges hoff]
  exact hchanges _ hout

theorem Stored.blockAddress_not_mem_inode (h : Stored lossless g m own) (hi : i < g.ninodes)
    (hj : own j) (hoff : off < 1024 * blockCount m j) : blockAddress m j off ∉ inodeBytes i := by
  intro hinode
  rcases h.blockAddress_cases hj hoff with hboot | ⟨howns, hmem⟩
  · have hlow := (Set.mem_Ico.1 hinode).1
    unfold inodeAt at hlow
    omega
  · exact not_mem_blockBytes_of_inode (h.safe.held_mem _ _ howns : g.IsData _) hi hinode hmem

/-! ## Files that stay -/

/-- A file has the same size and the same bytes in its blocks. -/
structure SameFile (m m' : Memory) (i : Nat) : Prop where
  size : oiSize m' (inodeAt i) = oiSize m (inodeAt i)
  ftype : oiFtype m' (inodeAt i) = oiFtype m (inodeAt i)
  bytes : ∀ off < 1024 * blockCount m i, blockByte m' i off = blockByte m i off

namespace SameFile

theorem refl (m : Memory) (i : Nat) : SameFile m m i := ⟨rfl, rfl, fun _ _ => rfl⟩

theorem blockCount_eq (h : SameFile m m' i) : blockCount m' i = blockCount m i :=
  congrArg ospfsSize2nblocks h.size

theorem trans (h : SameFile m m' i) (h' : SameFile m' m'' i) : SameFile m m'' i where
  size := h'.size.trans h.size
  ftype := h'.ftype.trans h.ftype
  bytes off hoff := by
    rw [h'.bytes off (hoff.trans_eq (by rw [h.blockCount_eq])), h.bytes off hoff]

theorem content (h : SameFile m m' i) (hfile : StoredFile lossless m i)
    (hoff : off < oiSize m (inodeAt i)) : Ospfs.content m' i off = Ospfs.content m i off := by
  rw [content_eq_block (h.ftype ▸ hfile.ftype) (hoff.trans_eq h.size.symm),
    content_eq_block hfile.ftype hoff]
  exact h.bytes off (hfile.lt_blocks hoff)

end SameFile

theorem Spares.sameFile (h : Stored lossless g m own) (hown : own i)
    (hchanges : ChangesOnly S m m') (hspares : Spares m own S i)
    (hftype : oiFtype m' (inodeAt i) = oiFtype m (inodeAt i))
    (hout : ∀ off < 1024 * blockCount m i, blockAddress m i off ∉ S) : SameFile m m' i where
  size := hspares.load hchanges (k := 0) (.inl rfl)
  ftype := hftype
  bytes off hoff := hspares.blockByte_eq h hown hchanges hoff (hout off hoff)

theorem Slot.not_inUse_zero {s : Slot} : ¬ s.InUse 0 := by
  cases s <;> simp [Slot.InUse]

/--
The owners that stay are spared, new owners have no blocks, and if no block may
be lost, neither do the owners that go.
-/
theorem Stored.frame (h : Stored lossless g m own) (hchanges : ChangesOnly S m m')
    (hS : ∀ a ∈ S, 3072 ≤ a)
    (hstay : ∀ i, own i → own' i →
      Spares m own S i ∧ oiFtype m' (inodeAt i) = oiFtype m (inodeAt i))
    (hnew : ∀ i, own' i → ¬ own i →
      i < g.ninodes ∧ blockCount m' i = 0 ∧ StoredFile lossless m' i)
    (hgone : lossless → ∀ i, own i → ¬ own' i → blockCount m i = 0) :
    Stored lossless g m' own' := by
  have hholds : ∀ p b, Owns m' own' p b ↔ own' p.1 ∧ Owns m own p b := by
    rintro ⟨i, s⟩ b
    by_cases hown' : own' i
    · by_cases hown : own i
      · have hiff := Spares.owns_iff h.safe hchanges (fun _ => (hstay i hown hown').1) s b
        simp only [hown', true_and, ← hiff]
        exact ⟨fun ho => ⟨hown, ho.inUse, ho.target, ho.counts⟩,
          fun ho => ⟨hown', ho.inUse, ho.target, ho.counts⟩⟩
      · refine ⟨fun ho => absurd ho.inUse ?_, fun ho => absurd ho.2.owner hown⟩
        rw [(hnew i hown' hown).2.1]
        exact Slot.not_inUse_zero
    · exact ⟨fun ho => absurd ho.owner hown', fun ho => absurd ho.1 hown'⟩
  have hfree : ∀ c, (ledger g m' own').Free c ↔ (ledger g m own).Free c := fun c =>
    and_congr_right fun hc => by
      have hblocks := g.nblocks_le
      rw [bitvectorTest_changesOnly hchanges (fun a ha => ?_) (by omega)]
      have hlow := hS a ha
      simp only [blockBytes, Set.mem_Ico]
      omega
  refine ⟨?_, ?_, ?_, ?_, ?_, ?_⟩
  · refine h.fits.changesOnly hchanges fun a ha => ?_
    have hlow := hS a ha
    simp only [blockBytes, Set.mem_Ico]
    omega
  · exact h.safe.sub (fun p b hp => ((hholds p b).1 hp).2) fun c hc => (hfree c).1 hc
  · intro hl b hb
    rcases h.complete hl b hb with hc | ⟨p, hp⟩
    · exact .inl ((hfree b).2 hc)
    · refine .inr ⟨p, (hholds p b).2 ⟨?_, hp⟩⟩
      by_contra hgone'
      have hcount := hgone hl p.1 hp.owner hgone'
      have huse := hp.inUse
      rw [hcount] at huse
      exact Slot.not_inUse_zero huse
  · intro a ha
    rw [hchanges a fun hmem => by have := hS a hmem; omega]
    exact h.boot a ha
  · intro i hi
    by_cases hown : own i
    · exact h.owners i hown
    · exact (hnew i hi hown).1
  · intro i hi
    by_cases hown : own i
    · obtain ⟨hspares, hftype⟩ := hstay i hown hi
      exact (h.file i hown).spared h.safe hown hchanges hspares hftype
    · exact (hnew i hi hown).2.2

/-! ## Writing bytes of a file -/

/-- Only the bytes of a file at offsets in `R` differ. -/
structure Writes (m : Memory) (i : Nat) (R : Set Nat) (m' : Memory) : Prop where
  changes : ChangesOnly {a | ∃ off ∈ R, a = address m i off} m m'
  size : ∀ off ∈ R, off < oiSize m (inodeAt i)
  block : ∀ off ∈ R, blocknoOf m i off ≠ 0

namespace Writes

variable {R : Set Nat}

/-- The bytes that are written are in data blocks. -/
theorem owned (h : Stored lossless g m own) (hown : own i) (hw : Writes m i R m')
    (ha : a ∈ {a | ∃ off ∈ R, a = address m i off}) :
    ∃ s b, ¬ s.IsMeta ∧ Owns m own (i, s) b ∧ a ∈ blockBytes b := by
  obtain ⟨off, hoff, rfl⟩ := ha
  have howns := h.owns hown (hw.size off hoff) (hw.block off hoff)
  refine ⟨_, _, Slot.ofIndex_not_isMeta _, howns, ?_⟩
  rw [h.address_of_pos hown (hw.size off hoff) (hw.block off hoff)]
  simp only [blockBytes, Set.mem_Ico]
  omega

theorem not_mem_inodeBytes (h : Stored lossless g m own) (hown : own i)
    (hw : Writes m i R m') (hj : j < g.ninodes)
    (ha : a ∈ {a | ∃ off ∈ R, a = address m i off}) : a ∉ inodeBytes j := by
  obtain ⟨s, b, -, howns, hmem⟩ := hw.owned h hown ha
  exact fun hinode => not_mem_blockBytes_of_inode (h.safe.held_mem _ b howns) hj hinode hmem

theorem inode (h : Stored lossless g m own) (hown : own i) (hw : Writes m i R m')
    (hj : j < g.ninodes) (ha : a ∈ inodeBytes j) : m' a = m a :=
  hw.changes a fun hmem => hw.not_mem_inodeBytes h hown hj hmem ha

theorem spares (h : Stored lossless g m own) (hown : own i) (hw : Writes m i R m')
    (hj : own j) : Spares m own {a | ∃ off ∈ R, a = address m i off} j where
  inode a ha hpointer :=
    hw.not_mem_inodeBytes h hown (h.owners j hj) ha (pointerBytes_subset j hpointer)
  blocks s c hmeta howns a ha := by
    obtain ⟨t, b, hdata, howns', hmem⟩ := hw.owned h hown ha
    refine not_mem_blockBytes_of_ne ?_ hmem
    rintro rfl
    have hslot := h.safe.once _ _ _ howns howns'
    simp only [Prod.mk.injEq] at hslot
    exact hdata (hslot.2 ▸ hmeta)

theorem load (h : Stored lossless g m own) (hown : own i) (hw : Writes m i R m')
    (hj : j < g.ninodes) {k : Nat} (hk : k ≤ 60) :
    load32 m' (inodeAt j + k) = load32 m (inodeAt j + k) :=
  load32_congr fun d hd => hw.inode h hown hj (by
    simp only [inodeBytes, Set.mem_Ico]
    omega)

theorem stored (h : Stored lossless g m own) (hown : own i) (hw : Writes m i R m') :
    Stored lossless g m' own := by
  refine h.frame hw.changes ?_ ?_ (fun j hj hj' => absurd hj hj')
    fun _ j hj hj' => absurd hj hj'
  · intro a ha
    obtain ⟨s, b, -, howns, hmem⟩ := hw.owned h hown ha
    have hthree := (h.safe.held_mem _ b howns : g.IsData b).three_lt
    simp only [blockBytes, Set.mem_Ico] at hmem
    omega
  · exact fun j hj _ =>
      ⟨hw.spares h hown hj, hw.load h hown (h.owners j hj) (by decide)⟩

theorem blockByte (h : Stored lossless g m own) (hown : own i) (hw : Writes m i R m')
    (hj : own j) (hoff : off < 1024 * blockCount m j) (hother : j = i → off ∉ R) :
    Ospfs.blockByte m' j off = Ospfs.blockByte m j off := by
  have hfile := h.file i hown
  refine (hw.spares h hown hj).blockByte_eq h hj hw.changes hoff ?_
  rintro ⟨off', hoff', heq⟩
  have hsize := hw.size off' hoff'
  have hpos := hw.block off' hoff'
  rw [blocknoOf_eq hfile.ftype hsize] at hpos
  rw [address_eq_block hfile.ftype hsize] at heq
  obtain ⟨rfl, rfl⟩ :=
    h.blockAddress_injective hown hj (hfile.lt_blocks hsize) hoff hpos heq.symm
  exact hother rfl hoff'

theorem address (h : Stored lossless g m own) (hown : own i) (hw : Writes m i R m')
    (hj : own j) (hoff : off < oiSize m (inodeAt j)) :
    Ospfs.address m' j off = Ospfs.address m j off :=
  (hw.spares h hown hj).address_eq h hj hw.changes
    (hw.load h hown (h.owners j hj) (by decide)) hoff

theorem content (h : Stored lossless g m own) (hown : own i) (hw : Writes m i R m')
    (hj : own j) (hoff : off < oiSize m (inodeAt j)) (hother : j = i → off ∉ R) :
    Ospfs.content m' j off = Ospfs.content m j off := by
  have hsize : oiSize m' (inodeAt j) = oiSize m (inodeAt j) :=
    hw.load h hown (h.owners j hj) (k := 0) (by decide)
  have hfile' := (hw.stored h hown).file j hj
  rw [content_eq_block hfile'.ftype (hoff.trans_eq hsize.symm),
    content_eq_block (h.file j hj).ftype hoff]
  exact hw.blockByte h hown hj ((h.file j hj).lt_blocks hoff) hother

end Writes

/-! ## Resizing a file -/

/-- The bytes that `change_size` may touch. -/
def reach (g : Geometry) (m : Memory) (own : Nat → Prop) (i : Nat) : Set Nat :=
  {a | a ∈ pointerBytes i ∨ a ∈ blockBytes 2 ∨ a ∈ freeBytes g m ∨
    ∃ s b, s.IsMeta ∧ Owns m own (i, s) b ∧ a ∈ blockBytes b}

structure Resized (lossless : Prop) (g : Geometry) (own : Nat → Prop) (i : Nat)
    (m m' : Memory) : Prop where
  stored : Stored lossless g m' own
  changes : ChangesOnly (reach g m own i) m m'
  kept : ∀ off, off < 1024 * blockCount m i → off < 1024 * blockCount m' i →
    blockAddress m' i off = blockAddress m i off
  fresh : ∀ off, 1024 * blockCount m i ≤ off → off < 1024 * blockCount m' i →
    blockByte m' i off = 0

theorem Stored.not_mem_inodeBytes_of_reach (h : Stored lossless g m own)
    (hj : j < g.ninodes) (ha : a ∈ reach g m own i) (hinode : a ∈ inodeBytes j) :
    a ∈ pointerBytes i := by
  rcases ha with hpointer | hbitmap | ⟨b, hb, hbit, hmem⟩ | ⟨s, b, -, howns, hmem⟩
  · exact hpointer
  · exact absurd hinode (not_mem_bitmap_of_inode hbitmap)
  · exact absurd hmem (not_mem_blockBytes_of_inode (h.safe.free_mem b ⟨hb, hbit⟩) hj hinode)
  · exact absurd hmem (not_mem_blockBytes_of_inode (h.safe.held_mem _ b howns) hj hinode)

theorem Stored.not_mem_reach_of_inode (h : Stored lossless g m own) (hj : j < g.ninodes)
    (hij : j ≠ i) (ha : a ∈ inodeBytes j) : a ∉ reach g m own i := fun hreach =>
  not_mem_inodeBytes_of_ne hij ha
    (pointerBytes_subset i (h.not_mem_inodeBytes_of_reach hj hreach ha))

/-- The boot sector and the superblock are not touched. -/
theorem Stored.le_of_reach (h : Stored lossless g m own) (ha : a ∈ reach g m own i) :
    2048 ≤ a := by
  rcases ha with hpointer | hbitmap | ⟨b, hb, hbit, hmem⟩ | ⟨s, b, -, howns, hmem⟩
  · have hlow := (Set.mem_Ico.1 (pointerBytes_subset i hpointer)).1
    unfold inodeAt at hlow
    omega
  · exact (Set.mem_Ico.1 hbitmap).1
  · have hthree := (h.safe.free_mem b ⟨hb, hbit⟩ : g.IsData b).three_lt
    have hlow := (Set.mem_Ico.1 hmem).1
    omega
  · have hthree := (h.safe.held_mem _ b howns : g.IsData b).three_lt
    have hlow := (Set.mem_Ico.1 hmem).1
    omega

/-- The bytes of files are not touched. -/
theorem Stored.blockAddress_not_mem_reach (h : Stored lossless g m own) (hi : i < g.ninodes)
    (hj : own j) (hoff : off < 1024 * blockCount m j) :
    blockAddress m j off ∉ reach g m own i := by
  rcases h.blockAddress_cases hj hoff with hboot | ⟨howns, hmem⟩
  · intro hreach
    have hlow := h.le_of_reach hreach
    omega
  · have hdata : g.IsData (blockNumber m j off) := h.safe.held_mem _ _ howns
    rintro (hpointer | hbitmap | ⟨b, hb, hbit, hmem'⟩ | ⟨s, b, hmeta, howns', hmem'⟩)
    · exact not_mem_blockBytes_of_inode hdata hi (pointerBytes_subset i hpointer) hmem
    · have hthree := hdata.three_lt
      exact not_mem_blockBytes_of_ne (by omega) hbitmap hmem
    · refine not_mem_blockBytes_of_ne ?_ hmem' hmem
      rintro rfl
      exact h.safe.held_not_free _ _ howns ⟨hb, hbit⟩
    · refine not_mem_blockBytes_of_ne ?_ hmem' hmem
      rintro rfl
      have hslot := h.safe.once _ _ _ howns howns'
      simp only [Prod.mk.injEq] at hslot
      exact Slot.ofIndex_not_isMeta _ (hslot.2 ▸ hmeta)

theorem Stored.spares_of_reach (h : Stored lossless g m own) (hi : i < g.ninodes)
    (hj : own j) (hij : j ≠ i) : Spares m own (reach g m own i) j where
  inode a ha hpointer := by
    have hinode := pointerBytes_subset j hpointer
    have hi' := h.not_mem_inodeBytes_of_reach (h.owners j hj) ha hinode
    exact not_mem_inodeBytes_of_ne hij hinode (pointerBytes_subset i hi')
  blocks s c hmeta howns a ha := by
    have hdata : g.IsData c := h.safe.held_mem _ c howns
    rcases ha with hpointer | hbitmap | ⟨b, hb, hbit, hmem⟩ | ⟨t, b, -, howns', hmem⟩
    · exact not_mem_blockBytes_of_inode hdata hi (pointerBytes_subset i hpointer)
    · have hthree := hdata.three_lt
      exact not_mem_blockBytes_of_ne (by omega) hbitmap
    · refine not_mem_blockBytes_of_ne ?_ hmem
      rintro rfl
      exact h.safe.held_not_free _ _ howns ⟨hb, hbit⟩
    · refine not_mem_blockBytes_of_ne ?_ hmem
      rintro rfl
      have hslot := h.safe.once _ _ _ howns howns'
      simp only [Prod.mk.injEq] at hslot
      exact hij hslot.1

theorem Stored.sameFile_of_reach (h : Stored lossless g m own) (hi : i < g.ninodes)
    (hj : own j) (hij : j ≠ i) (hchanges : ChangesOnly (reach g m own i) m m') :
    SameFile m m' j := by
  refine (h.spares_of_reach hi hj hij).sameFile h hj hchanges ?_
    fun _ hoff => h.blockAddress_not_mem_reach hi hj hoff
  exact load32_congr fun d hd => hchanges _ (h.not_mem_reach_of_inode (h.owners j hj) hij (by
    simp only [inodeBytes, Set.mem_Ico]
    omega))

theorem Stored.field_of_reach (h : Stored lossless g m own) (hj : j < g.ninodes)
    (hchanges : ChangesOnly (reach g m own i) m m') {k : Nat} (hk : 4 ≤ k) (hk' : k ≤ 12) :
    load32 m' (inodeAt j + k) = load32 m (inodeAt j + k) :=
  load32_congr fun d hd => hchanges _ fun hreach => by
    have hpointer := h.not_mem_inodeBytes_of_reach hj hreach
      (by simp only [inodeBytes, Set.mem_Ico]; omega)
    simp only [pointerBytes, inodeAt, Set.mem_ofPred_eq] at hpointer
    omega

namespace Resized

theorem refl (h : Stored lossless g m own) : Resized lossless g own i m m :=
  ⟨h, .refl m, fun _ _ _ => rfl, fun _ hle hlt => absurd hlt (not_lt.2 hle)⟩

/-- The type, the link count and the mode of an inode stay as they are. -/
theorem field (hr : Resized lossless g own i m m') (h : Stored lossless g m own)
    (hj : j < g.ninodes) {k : Nat} (hk : 4 ≤ k) (hk' : k ≤ 12) :
    load32 m' (inodeAt j + k) = load32 m (inodeAt j + k) :=
  h.field_of_reach hj hr.changes hk hk'

theorem load (hr : Resized lossless g own i m m') (h : Stored lossless g m own)
    (hj : j < g.ninodes) (hij : j ≠ i) {k : Nat} (hk : k ≤ 60) :
    load32 m' (inodeAt j + k) = load32 m (inodeAt j + k) :=
  load32_congr fun d hd => hr.changes _ (h.not_mem_reach_of_inode hj hij (by
    simp only [inodeBytes, Set.mem_Ico]
    omega))

theorem blockCount_eq (hr : Resized lossless g own i m m') (h : Stored lossless g m own)
    (hj : j < g.ninodes) (hij : j ≠ i) : blockCount m' j = blockCount m j :=
  congrArg ospfsSize2nblocks (hr.load h hj hij (k := 0) (by decide))

theorem blockAddress (hr : Resized lossless g own i m m') (h : Stored lossless g m own)
    (hi : i < g.ninodes) (hj : own j) (hoff : off < 1024 * blockCount m j)
    (hoff' : off < 1024 * blockCount m' j) :
    Ospfs.blockAddress m' j off = Ospfs.blockAddress m j off := by
  by_cases hij : j = i
  · subst hij
    exact hr.kept off hoff hoff'
  · exact (h.spares_of_reach hi hj hij).blockAddress_eq h hj hr.changes hoff

theorem blockByte (hr : Resized lossless g own i m m') (h : Stored lossless g m own)
    (hi : i < g.ninodes) (hj : own j) (hoff : off < 1024 * blockCount m j)
    (hoff' : off < 1024 * blockCount m' j) :
    Ospfs.blockByte m' j off = Ospfs.blockByte m j off := by
  unfold Ospfs.blockByte
  rw [hr.blockAddress h hi hj hoff hoff']
  exact hr.changes _ (h.blockAddress_not_mem_reach hi hj hoff)

theorem address (hr : Resized lossless g own i m m') (h : Stored lossless g m own)
    (hi : i < g.ninodes) (hj : own j) (hoff : off < oiSize m (inodeAt j))
    (hoff' : off < oiSize m' (inodeAt j)) :
    Ospfs.address m' j off = Ospfs.address m j off := by
  have hfile := h.file j hj
  have hfile' := hr.stored.file j hj
  rw [address_eq_block hfile'.ftype hoff', address_eq_block hfile.ftype hoff]
  exact hr.blockAddress h hi hj (hfile.lt_blocks hoff) (hfile'.lt_blocks hoff')

theorem content (hr : Resized lossless g own i m m') (h : Stored lossless g m own)
    (hi : i < g.ninodes) (hj : own j) (hoff : off < oiSize m (inodeAt j))
    (hoff' : off < oiSize m' (inodeAt j)) :
    Ospfs.content m' j off = Ospfs.content m j off := by
  have hfile := h.file j hj
  have hfile' := hr.stored.file j hj
  rw [content_eq_block hfile'.ftype hoff', content_eq_block hfile.ftype hoff]
  exact hr.blockByte h hi hj (hfile.lt_blocks hoff) (hfile'.lt_blocks hoff')

end Resized

theorem subset_reach : resizeBytes i ∪ freeBytes g m ⊆ reach g m own i := by
  rintro a ((hsize | hdirect | hbitmap) | hfree)
  · exact .inl (.inl hsize)
  · exact .inl (.inr ⟨hdirect.1, by omega⟩)
  · exact .inr (.inl hbitmap)
  · exact .inr (.inr (.inl hfree))

/-- Only one owner and free blocks are touched. -/
theorem Stored.of_reach (h : Stored lossless g m own) (hown : own i)
    (hchanges : ChangesOnly (reach g m own i) m m') (hsafe : Safe g m' own)
    (hcomplete : lossless → Balanced g m' own) (hfile : StoredFile lossless m' i) :
    Stored lossless g m' own where
  fits := h.fits.changesOnly hchanges fun a ha => by
    have hlow := h.le_of_reach ha
    simp only [blockBytes, Set.mem_Ico]
    omega
  safe := hsafe
  complete hl := (hcomplete hl).complete
  boot a ha := by
    rw [hchanges a fun hreach => by have := h.le_of_reach hreach; omega]
    exact h.boot a ha
  owners := h.owners
  file j hj := by
    by_cases hij : j = i
    · exact hij ▸ hfile
    · refine (h.file j hj).spared h.safe hj hchanges
        (h.spares_of_reach (h.owners i hown) hj hij) ?_
      exact (h.sameFile_of_reach (h.owners i hown) hj hij hchanges).ftype

/-- Resizing within the direct blocks. -/
theorem Resizes.resized (hr : Resizes g own i m m') (h : Stored lossless g m own)
    (hown : own i) (hsize : oiSize m (inodeAt i) ≤ 10240)
    (hsize' : oiSize m' (inodeAt i) ≤ 10240) : Resized lossless g own i m m' := by
  have hi := h.owners i hown
  have hfile := h.file i hown
  have hchanges : ChangesOnly (reach g m own i) m m' := hr.changes.mono subset_reach
  have hten : ∀ {m : Memory}, oiSize m (inodeAt i) ≤ 10240 → blockCount m i ≤ 10 := by
    intro m hm
    unfold blockCount ospfsSize2nblocks
    omega
  have hfilled' : Filled m' i :=
    hr.filled ((filled_iff_of_le (hten hsize)).2 fun k hk =>
      hfile.direct k (hk.trans_le (hten hsize)) hk)
  have hftype : oiFtype m' (inodeAt i) = oiFtype m (inodeAt i) :=
    h.field_of_reach hi hchanges (by decide) (by decide)
  have hindirect : oiIndirect m' (inodeAt i) = oiIndirect m (inodeAt i) := by
    refine load32_congr fun d hd => hr.changes _ ?_
    rintro (hresize | ⟨b, hb, hbit, hmem⟩)
    · simp only [resizeBytes, blockBytes, inodeAt, Set.mem_ofPred_eq, Set.mem_Ico] at hresize
      omega
    · exact not_mem_blockBytes_of_inode (h.safe.free_mem b ⟨hb, hbit⟩) hi
        (by simp only [inodeBytes, Set.mem_Ico]; omega) hmem
  have hfile' : StoredFile lossless m' i := by
    refine ⟨?_, ?_, ?_, ?_, fun _ => hfilled', fun hl => hr.pastZero (hfile.pastZero hl)⟩
    · rw [hftype]
      exact hfile.ftype
    · unfold Slot.maxfileblks
      omega
    · exact fun k _ hlt => (filled_iff_of_le (hten hsize')).1 hfilled' k hlt
    · rw [hindirect]
      exact fun _ => hfile.indirect (hten hsize)
  have hindex : ∀ {k off : Nat}, k ≤ 10 → off < 1024 * k →
      Slot.ofIndex (off / 1024) = .direct (off / 1024) := fun hk hoff => if_pos (by omega)
  refine ⟨h.of_reach hown hchanges (h.safe.moves hr.moves)
    (fun hl => (h.balanced hl).moves hr.moves) hfile', hchanges, ?_, ?_⟩
  · intro off hoff hoff'
    have huse := hfile.inUse hoff
    have huse' := hfile'.inUse hoff'
    unfold blockAddress blockNumber
    rw [hindex (hten hsize) hoff] at huse huse' ⊢
    simp only [Slot.target, hr.direct _ huse.1 huse.2 huse'.2]
  · intro off hle hoff
    have huse := hfile'.inUse hoff
    rw [hindex (hten hsize') hoff] at huse
    have hnumber : blockNumber m' i off = oiDirect m' (inodeAt i) (off / 1024) := by
      rw [blockNumber, hindex (hten hsize') hoff]
      rfl
    obtain ⟨hpos, hzero⟩ := hr.fresh (off / 1024) huse.1 (by omega) huse.2
    apply hzero
    have hdata : g.IsData (oiDirect m' (inodeAt i) (off / 1024)) :=
      (h.safe.moves hr.moves).held_mem (i, .direct (off / 1024)) _
        ⟨hown, huse, rfl, .inl hpos⟩
    rw [blockAddress, hnumber, hdata.block]
    simp only [blockBytes, Set.mem_Ico]
    omega

/-- `change_size` sets the size, or there is no space and the size stays. -/
def Resizable (lossless : Prop) (g : Geometry) (own : Nat → Prop) (m : Memory)
    (i newSize : Nat) : Prop :=
  ∃ r m', changeSize m (inodeAt i) newSize = (r, m') ∧ Resized lossless g own i m m' ∧
    (r = none ∧ oiSize m' (inodeAt i) = newSize ∨
      r = some .enospc ∧ oiSize m' (inodeAt i) = oiSize m (inodeAt i))

theorem resizable_of_direct {newSize : Nat} (h : Stored lossless g m own) (hown : own i)
    (hsize : oiSize m (inodeAt i) ≤ 10240) (hnew : newSize ≤ 10240) :
    Resizable lossless g own m i newSize := by
  have hten : blockCount m i ≤ 10 := by
    unfold blockCount ospfsSize2nblocks
    omega
  have hfilled : Filled m i := (filled_iff_of_le hten).2 fun k hk =>
    (h.file i hown).direct k (hk.trans_le hten) hk
  obtain ⟨r, m', hchange, hresizes, hresult⟩ :=
    changeSize_spec hown h.owners h.fits h.safe hfilled hsize hnew
  have hsize' : oiSize m' (inodeAt i) ≤ 10240 := by
    rcases hresult with ⟨-, heq⟩ | ⟨-, heq⟩ <;> omega
  exact ⟨r, m', hchange, hresizes.resized h hown hsize hsize', hresult⟩

end Cs111Labs.Ospfs
