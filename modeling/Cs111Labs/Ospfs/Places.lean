import Cs111Labs.Foundation.Ledger
import Cs111Labs.Ospfs.Disk

/-!
# Places of block numbers

A block number can stand in an inode, in an indirect block, in the doubly
indirect block or in a block below it.  The disk is read as a ledger in which
these places hold blocks and the bitmap lists the free ones.
-/

namespace Cs111Labs.Ospfs

open Foundation Memory

/-! ## Layout -/

/-- The size of a disk, within the limits of `ospfsformat`. -/
structure Geometry where
  nblocks : Nat
  ninodes : Nat
  nblocks_le : nblocks ≤ 8192
  ninodes_le : 3 + (ninodes + 15) / 16 ≤ nblocks

namespace Geometry

def firstData (g : Geometry) : Nat := 3 + (g.ninodes + 15) / 16

def IsData (g : Geometry) (b : Nat) : Prop := g.firstData ≤ b ∧ b < g.nblocks

/-- The superblock of the disk. -/
structure Fits (g : Geometry) (m : Memory) : Prop where
  nblocks : osNblocks m = g.nblocks
  ninodes : osNinodes m = g.ninodes
  firstinob : osFirstinob m = 3

end Geometry

/-- The address of an inode. -/
def inodeAt (ino : Nat) : Nat := 3072 + 64 * ino

def inodeBytes (ino : Nat) : Set Nat := Set.Ico (inodeAt ino) (inodeAt ino + 64)

/-- The size of an inode and its pointers. -/
def pointerBytes (ino : Nat) : Set Nat :=
  {a | (inodeAt ino ≤ a ∧ a < inodeAt ino + 4) ∨
    (inodeAt ino + 16 ≤ a ∧ a < inodeAt ino + 64)}

def blockBytes (b : Nat) : Set Nat := Set.Ico (1024 * b) (1024 * b + 1024)

variable {g : Geometry} {m m' : Memory} {own own' : Nat → Prop} {S : Set Nat}
  {a b i j n : Nat}

theorem Geometry.IsData.lt (h : g.IsData b) : b < 2 ^ 22 := by
  have hlt := h.2
  have hle := g.nblocks_le
  omega

theorem Geometry.IsData.three_lt (h : g.IsData b) : 3 ≤ b := by
  have hle := h.1
  unfold Geometry.firstData at hle
  omega

theorem Geometry.IsData.block (h : g.IsData b) : ospfsBlock b = 1024 * b :=
  ospfsBlock_of_lt h.lt

theorem not_mem_blockBytes_of_inode (hb : g.IsData b) (hi : i < g.ninodes)
    (ha : a ∈ inodeBytes i) : a ∉ blockBytes b := by
  have hfirst := hb.1
  simp only [inodeBytes, blockBytes, inodeAt, Set.mem_Ico, Geometry.firstData] at *
  omega

theorem not_mem_blockBytes_of_ne (h : b ≠ n) (ha : a ∈ blockBytes b) :
    a ∉ blockBytes n := by
  simp only [blockBytes, Set.mem_Ico] at *
  omega

theorem not_mem_inodeBytes_of_ne (h : i ≠ j) (ha : a ∈ inodeBytes i) :
    a ∉ inodeBytes j := by
  simp only [inodeBytes, inodeAt, Set.mem_Ico] at *
  omega

theorem pointerBytes_subset (i : Nat) : pointerBytes i ⊆ inodeBytes i := by
  intro a ha
  simp only [pointerBytes, inodeBytes, Set.mem_ofPred_eq, Set.mem_Ico] at *
  omega

theorem Geometry.Fits.ospfsInode (h : g.Fits m) (hi : i < g.ninodes) :
    ospfsInode m i = some (inodeAt i) := by
  unfold Ospfs.ospfsInode
  rw [if_neg (by rw [h.ninodes]; omega), h.firstinob]
  rfl

theorem Geometry.Fits.lt_of_ospfsInode (h : g.Fits m) {oi : Nat}
    (hi : Ospfs.ospfsInode m i = some oi) : i < g.ninodes ∧ oi = inodeAt i := by
  unfold Ospfs.ospfsInode at hi
  rw [h.ninodes, h.firstinob] at hi
  split_ifs at hi with hlt
  exact ⟨by omega, (Option.some.inj hi).symm⟩

/-- The superblock is not touched. -/
theorem Geometry.Fits.changesOnly (h : g.Fits m) (hchanges : ChangesOnly S m m')
    (hout : ∀ a ∈ S, a ∉ blockBytes 1) : g.Fits m' := by
  have hload : ∀ k, k ≤ 1020 → load32 m' (1024 + k) = load32 m (1024 + k) :=
    fun k hk => hchanges.load32 fun d hd hmem => hout _ hmem (by
      simp only [blockBytes, Set.mem_Ico]
      omega)
  exact ⟨(hload 4 (by decide)).trans h.nblocks, (hload 8 (by decide)).trans h.ninodes,
    (hload 12 (by decide)).trans h.firstinob⟩

/-! ## Places -/

inductive Slot where
  | direct (k : Nat)
  | indirect
  | single (k : Nat)
  | indirect2
  | outer (l : Nat)
  | double (l k : Nat)
  deriving DecidableEq, Repr

namespace Slot

/-- The slot is below the block count `n` of its file. -/
def InUse (n : Nat) : Slot → Prop
  | direct k => k < 10 ∧ k < n
  | indirect => 10 < n
  | single k => k < 256 ∧ 10 + k < n
  | indirect2 => 10 + 256 < n
  | outer l => l < 256 ∧ 10 + 256 + 256 * l < n
  | double l k => l < 256 ∧ k < 256 ∧ 10 + 256 + 256 * l + k < n

/-- The block number in a slot of an inode. -/
def target (m : Memory) (oi : Nat) : Slot → Nat
  | direct k => oiDirect m oi k
  | indirect => oiIndirect m oi
  | single k => load32 m (ospfsBlock (oiIndirect m oi) + 4 * k)
  | indirect2 => oiIndirect2 m oi
  | outer l => load32 m (ospfsBlock (oiIndirect2 m oi) + 4 * l)
  | double l k =>
      load32 m (ospfsBlock (load32 m (ospfsBlock (oiIndirect2 m oi) + 4 * l)) + 4 * k)

/-- The slot points to block numbers. -/
def IsMeta : Slot → Prop
  | indirect | indirect2 | outer _ => True
  | direct _ | single _ | double _ _ => False

/-- The slot of the data block with index `blockno`. -/
def ofIndex (blockno : Nat) : Slot :=
  if blockno < 10 then direct blockno
  else if blockno < 10 + 256 then single (blockno - 10)
  else double ((blockno - (10 + 256)) / 256) ((blockno - (10 + 256)) % 256)

/-- `OSPFS_MAXFILEBLKS` -/
def maxfileblks : Nat := 65802

theorem ofIndex_inUse (h : b < n) (hn : n ≤ maxfileblks) : (ofIndex b).InUse n := by
  unfold maxfileblks at hn
  unfold ofIndex
  split_ifs <;> simp only [InUse] <;> omega

theorem ofIndex_not_isMeta (b : Nat) : ¬ (ofIndex b).IsMeta := by
  unfold ofIndex
  split_ifs <;> exact id

theorem ofIndex_injective (h : ofIndex a = ofIndex b) : a = b := by
  unfold ofIndex at h
  split_ifs at h <;> simp only [direct.injEq, single.injEq, double.injEq] at h <;>
    omega

end Slot

/-- The number of blocks of an inode. -/
def blockCount (m : Memory) (i : Nat) : Nat := ospfsSize2nblocks (oiSize m (inodeAt i))

theorem blockCount_eq (m : Memory) (i : Nat) :
    blockCount m i = ospfsSize2nblocks (oiSize m (inodeAt i)) := rfl

theorem ospfsInodeBlockno_eq (hoffset : a < oiSize m (inodeAt i))
    (hftype : oiFtype m (inodeAt i) ≠ ftypeSymlink) :
    ospfsInodeBlockno m (inodeAt i) a = (Slot.ofIndex (a / 1024)).target m (inodeAt i) := by
  unfold ospfsInodeBlockno Slot.ofIndex
  dsimp only
  rw [if_neg (by simp [hoffset, hftype])]
  by_cases hdirect : a / 1024 < 10
  · rw [if_neg (by omega), if_neg (by omega), if_pos hdirect]
    rfl
  · by_cases hsingle : a / 1024 < 10 + 256
    · rw [if_neg (by omega), if_pos (by omega), if_neg hdirect, if_pos hsingle]
      rfl
    · rw [if_pos (by omega), if_neg hdirect, if_neg hsingle]
      rfl

/-! ## The ledger -/

/-- A slot of an owner holds a block; a data slot with 0 holds none. -/
structure Owns (m : Memory) (own : Nat → Prop) (place : Nat × Slot) (b : Nat) :
    Prop where
  owner : own place.1
  inUse : place.2.InUse (blockCount m place.1)
  target : place.2.target m (inodeAt place.1) = b
  counts : b ≠ 0 ∨ place.2.IsMeta

/-- No data slot of an inode is 0. -/
def Filled (m : Memory) (i : Nat) : Prop :=
  ∀ s : Slot, s.InUse (blockCount m i) → s.target m (inodeAt i) ≠ 0 ∨ s.IsMeta

def ledger (g : Geometry) (m : Memory) (own : Nat → Prop) : Ledger (Nat × Slot) Nat where
  Holds := Owns m own
  Free b := b < g.nblocks ∧ bitvectorTest m freemap b = true

/-- The blocks of the owners are accounted for, but some may be lost. -/
def Safe (g : Geometry) (m : Memory) (own : Nat → Prop) : Prop :=
  (ledger g m own).Safe g.IsData

/-- The blocks of the owners are accounted for, and no other block is in use. -/
def Balanced (g : Geometry) (m : Memory) (own : Nat → Prop) : Prop :=
  (ledger g m own).Balanced g.IsData

theorem Safe.isData (h : Safe g m own) {s : Slot} (hown : own i)
    (hs : s.InUse (blockCount m i)) (hcounts : s.target m (inodeAt i) ≠ 0 ∨ s.IsMeta) :
    g.IsData (s.target m (inodeAt i)) :=
  h.held_mem (i, s) _ ⟨hown, hs, rfl, hcounts⟩

/-- A change at `S` does not reach the pointers of an inode. -/
structure Spares (m : Memory) (own : Nat → Prop) (S : Set Nat) (i : Nat) : Prop where
  inode : ∀ a ∈ S, a ∉ pointerBytes i
  blocks : ∀ s b, s.IsMeta → Owns m own (i, s) b → ∀ a ∈ S, a ∉ blockBytes b

/-- Owners that are spared keep their blocks. -/
theorem Spares.target_eq (h : Safe g m own) (hchanges : ChangesOnly S m m')
    (hspares : Spares m own S i) (hown : own i) {s : Slot}
    (hs : s.InUse (blockCount m i)) :
    s.target m' (inodeAt i) = s.target m (inodeAt i) := by
  have hfield : ∀ k, 16 ≤ k → k ≤ 60 →
      load32 m' (inodeAt i + k) = load32 m (inodeAt i + k) :=
    fun k hk hk' => hchanges.load32 fun d hd hmem => hspares.inode _ hmem (by
      simp only [pointerBytes, Set.mem_ofPred_eq]
      omega)
  have hpointer : ∀ t : Slot, t.IsMeta → t.InUse (blockCount m i) → ∀ k, k < 256 →
      load32 m' (ospfsBlock (t.target m (inodeAt i)) + 4 * k) =
        load32 m (ospfsBlock (t.target m (inodeAt i)) + 4 * k) := by
    intro t ht huse k hk
    have hdata := h.isData hown huse (.inr ht)
    refine hchanges.load32 fun d hd hmem => ?_
    refine hspares.blocks t _ ht ⟨hown, huse, rfl, .inr ht⟩ _ hmem ?_
    rw [hdata.block]
    simp only [blockBytes, Set.mem_Ico]
    omega
  have hindirect : oiIndirect m' (inodeAt i) = oiIndirect m (inodeAt i) :=
    hfield 56 (by decide) (by decide)
  have hindirect2 : oiIndirect2 m' (inodeAt i) = oiIndirect2 m (inodeAt i) :=
    hfield 60 (by decide) (by decide)
  cases s with
  | direct k =>
      have hk := hs.1
      have hdirect := hfield (16 + 4 * k) (by omega) (by omega)
      simpa only [Slot.target, oiDirect, ← Nat.add_assoc] using hdirect
  | indirect => exact hindirect
  | indirect2 => exact hindirect2
  | single k =>
      simp only [Slot.target, hindirect]
      exact hpointer .indirect trivial (by have := hs.2; simp only [Slot.InUse]; omega) k hs.1
  | outer l =>
      simp only [Slot.target, hindirect2]
      exact hpointer .indirect2 trivial (by have := hs.2; simp only [Slot.InUse]; omega) l hs.1
  | double l k =>
      obtain ⟨hl, hk, hlt⟩ := hs
      have houter : (Slot.outer l).InUse (blockCount m i) := ⟨hl, by omega⟩
      have hl' := hpointer .indirect2 trivial (by simp only [Slot.InUse]; omega) l hl
      simp only [Slot.target] at hl'
      simp only [Slot.target, hindirect2, hl']
      exact hpointer (.outer l) trivial houter k hk

theorem Spares.blockCount_eq (hchanges : ChangesOnly S m m')
    (hspares : Spares m own S i) : blockCount m' i = blockCount m i := by
  have hsize : load32 m' (inodeAt i) = load32 m (inodeAt i) :=
    hchanges.load32 fun d hd hmem => hspares.inode _ hmem (by
      simp only [pointerBytes, Set.mem_ofPred_eq]
      omega)
  unfold blockCount oiSize
  rw [hsize]

theorem Spares.owns_iff (h : Safe g m own) (hchanges : ChangesOnly S m m')
    (hspares : own i → Spares m own S i) (s : Slot) (b : Nat) :
    Owns m' own (i, s) b ↔ Owns m own (i, s) b := by
  constructor
  · rintro ⟨hown, huse, htarget, hcounts⟩
    have hcount := (hspares hown).blockCount_eq hchanges
    rw [hcount] at huse
    exact ⟨hown, huse, ((hspares hown).target_eq h hchanges hown huse).symm.trans htarget,
      hcounts⟩
  · rintro ⟨hown, huse, htarget, hcounts⟩
    have hcount := (hspares hown).blockCount_eq hchanges
    exact ⟨hown, by rwa [hcount],
      ((hspares hown).target_eq h hchanges hown huse).trans htarget, hcounts⟩

end Cs111Labs.Ospfs
