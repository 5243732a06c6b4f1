import Cs111Labs.Ospfs.Bitmap

/-!
# The metadata of a formatted disk

`opendisk` of ospfsformat lays out the superblock, the free-block bitmap and the
inodes in front of the data blocks.  `free_block` computes where they end once
more, from the superblock, and does not round up.
-/

namespace Cs111Labs.Ospfs

open Foundation Memory

/-- The checks of `main`; ospfsformat prints its usage otherwise. -/
def AcceptsSizes (nblocks ninodes : Nat) : Prop :=
  ¬ (nblocks < 2 ∨ nblocks > 8192) ∧ ¬ ninodes < 2 ∧
    ¬ ninodes ≥ nblocks - 2 - nblocks / 8192

instance (nblocks ninodes : Nat) : Decidable (AcceptsSizes nblocks ninodes) :=
  inferInstanceAs (Decidable (_ ∧ _ ∧ _))

/-- `super` and `nextb` after `opendisk` -/
structure Opened where
  nblocks : Nat
  ninodes : Nat
  firstinob : Nat
  /-- The first data block. -/
  nextb : Nat

def opendisk (nblocks ninodes : Nat) : Opened :=
  let nbitblock := (nblocks + 8192 - 1) / 8192
  let ninodeblock := (ninodes + 16 - 1) / 16
  { nblocks := nblocks
    ninodes := ninodes
    firstinob := 2 + nbitblock
    nextb := 2 + nbitblock + ninodeblock }

/-- The superblock is on the disk. -/
structure Opened.Stored (o : Opened) (m : Memory) : Prop where
  nblocks : osNblocks m = o.nblocks
  ninodes : osNinodes m = o.ninodes
  firstinob : osFirstinob m = o.firstinob

/-- `free_block` sets the bits of the data blocks and no others. -/
def Opened.ProtectsMetadata (o : Opened) : Prop :=
  ∀ m, o.Stored m → ∀ b c, bitvectorTest (freeBlock m b) freemap c =
    (bitvectorTest m freemap c || decide (c = b ∧ o.nextb ≤ b ∧ b < o.nblocks))

variable {nblocks ninodes b c : Nat} {m : Memory}

theorem AcceptsSizes.firstinob (h : AcceptsSizes nblocks ninodes) :
    (opendisk nblocks ninodes).firstinob = 3 := by
  have hsize := h.1
  simp only [opendisk]
  omega

theorem AcceptsSizes.room (h : AcceptsSizes nblocks ninodes) : ninodes + 2 < nblocks := by
  obtain ⟨-, hmin, hmax⟩ := h
  omega

/-- The disks of the file system are those that `opendisk` lays out. -/
def AcceptsSizes.geometry (h : AcceptsSizes nblocks ninodes) : Geometry where
  nblocks := nblocks
  ninodes := ninodes
  nblocks_le := by
    have hsize := h.1
    omega
  ninodes_le := by
    have hroom := h.room
    have hmin := h.2.1
    omega

theorem AcceptsSizes.firstData_eq (h : AcceptsSizes nblocks ninodes) :
    h.geometry.firstData = (opendisk nblocks ninodes).nextb :=
  congrArg (· + (ninodes + 15) / 16) h.firstinob.symm

theorem AcceptsSizes.fits (h : AcceptsSizes nblocks ninodes)
    (hm : (opendisk nblocks ninodes).Stored m) : h.geometry.Fits m where
  nblocks := hm.nblocks
  ninodes := hm.ninodes
  firstinob := hm.firstinob.trans h.firstinob

/-- Which bits are set after `free_block`. -/
theorem freeBlock_bit (h : AcceptsSizes nblocks ninodes)
    (hm : (opendisk nblocks ninodes).Stored m) (b c : Nat) :
    bitvectorTest (freeBlock m b) freemap c = (bitvectorTest m freemap c ||
      decide (c = b ∧ 3 + ninodes / 16 ≤ b ∧ b < nblocks)) := by
  have hfits := h.fits hm
  have hset : b < nblocks ∧ b ≥ 3 + ninodes / 16 ↔ 3 + ninodes / 16 ≤ b ∧ b < nblocks :=
    and_comm
  unfold freeBlock
  rw [hfits.nblocks, hfits.ninodes, hfits.firstinob]
  simp only [AcceptsSizes.geometry, hset]
  split_ifs with hrange
  · rw [bitvectorTest_set]
    simp [hrange]
  · simp [hrange]

/-- A disk with this superblock on which no block is free. -/
def superblockOnly (o : Opened) : Memory :=
  ofWords fun k =>
    if k = 257 then o.nblocks else if k = 258 then o.ninodes
    else if k = 259 then o.firstinob else 0

theorem superblockOnly_stored (h : AcceptsSizes nblocks ninodes) :
    (opendisk nblocks ninodes).Stored (superblockOnly (opendisk nblocks ninodes)) := by
  have hroom := h.room
  have hsize := h.1
  have hfirst := h.firstinob
  have hword : ∀ k, load32 (superblockOnly (opendisk nblocks ninodes)) (4 * k) = _ :=
    load32_ofWords _
  constructor
  · refine (hword 257).trans ?_
    exact Nat.mod_eq_of_lt (show nblocks < 2 ^ 32 by omega)
  · refine (hword 258).trans ?_
    exact Nat.mod_eq_of_lt (show ninodes < 2 ^ 32 by omega)
  · refine (hword 259).trans ?_
    exact Nat.mod_eq_of_lt (show (opendisk nblocks ninodes).firstinob < 2 ^ 32 by omega)

theorem superblockOnly_bit (o : Opened) (c : Nat) :
    bitvectorTest (superblockOnly o) freemap c = false := by
  have hword := load32_ofWords (fun k => if k = 257 then o.nblocks else
    if k = 258 then o.ninodes else if k = 259 then o.firstinob else 0) (512 + c / 32)
  simp only [show 512 + c / 32 ≠ 257 by omega, show 512 + c / 32 ≠ 258 by omega,
    show 512 + c / 32 ≠ 259 by omega, if_false] at hword
  unfold bitvectorTest superblockOnly
  rw [freemap_eq, show 2048 + 4 * (c / 32) = 4 * (512 + c / 32) by omega, hword]
  exact Nat.zero_testBit _

/-- Where inodes do not fill their last block, `free_block` frees that block. -/
theorem protectsMetadata_iff (h : AcceptsSizes nblocks ninodes) :
    (opendisk nblocks ninodes).ProtectsMetadata ↔ 16 ∣ ninodes := by
  have hroom := h.room
  have hmin := h.2.1
  have hnextb : (opendisk nblocks ninodes).nextb = 3 + (ninodes + 15) / 16 :=
    h.firstData_eq.symm
  constructor
  · intro hprotects
    have hbit := hprotects _ (superblockOnly_stored h) (3 + ninodes / 16) (3 + ninodes / 16)
    rw [freeBlock_bit h (superblockOnly_stored h), superblockOnly_bit,
      Bool.false_or, Bool.false_or, decide_eq_decide, hnextb] at hbit
    have hnext := (hbit.mp ⟨rfl, le_rfl, by omega⟩).2.1
    omega
  · intro hdvd m hm b c
    rw [freeBlock_bit h hm, hnextb]
    have hround : (ninodes + 15) / 16 = ninodes / 16 := by omega
    rw [hround]
    rfl

theorem protectsMetadata_iff_shipped : (opendisk 4096 128).ProtectsMetadata :=
  (protectsMetadata_iff (by decide)).mpr (by decide)

/-- The inodes 16 to 19 are in block 4, which is the first block that may be freed. -/
theorem twentyInodes_not_protectsMetadata :
    AcceptsSizes 100 20 ∧ ¬ (opendisk 100 20).ProtectsMetadata := by
  have haccepts : AcceptsSizes 100 20 := by decide
  refine ⟨haccepts, fun h => ?_⟩
  have hbit := h _ (superblockOnly_stored haccepts) 4 4
  rw [freeBlock_bit haccepts (superblockOnly_stored haccepts),
    superblockOnly_bit] at hbit
  revert hbit
  decide

end Cs111Labs.Ospfs
