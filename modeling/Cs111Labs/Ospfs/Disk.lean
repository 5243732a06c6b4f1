import Cs111Labs.Foundation.Memory

/-!
# The disk of OSPFS

The disk is the array `ospfs_data`, and a pointer is an offset in it.  Blocks
have 1024 bytes, inodes 64 and directory entries 128.  There are 10 direct
block pointers in an inode and 256 block pointers in an indirect block.
-/

namespace Cs111Labs.Ospfs

open Foundation Memory

/-! ## Superblock -/

def osNblocks (m : Memory) : Nat := load32 m (1024 + 4)

def osNinodes (m : Memory) : Nat := load32 m (1024 + 8)

def osFirstinob (m : Memory) : Nat := load32 m (1024 + 12)

/-! ## Inodes -/

/-- `OSPFS_FTYPE_*` -/
abbrev ftypeReg : Nat := 0

abbrev ftypeDir : Nat := 1

abbrev ftypeSymlink : Nat := 2

def oiSize (m : Memory) (oi : Nat) : Nat := load32 m oi

def oiFtype (m : Memory) (oi : Nat) : Nat := load32 m (oi + 4)

def oiNlink (m : Memory) (oi : Nat) : Nat := load32 m (oi + 8)

def oiDirect (m : Memory) (oi i : Nat) : Nat := load32 m (oi + 16 + 4 * i)

def oiIndirect (m : Memory) (oi : Nat) : Nat := load32 m (oi + 56)

def oiIndirect2 (m : Memory) (oi : Nat) : Nat := load32 m (oi + 60)

def setOiSize (m : Memory) (oi v : Nat) : Memory := store32 m oi v

def setOiFtype (m : Memory) (oi v : Nat) : Memory := store32 m (oi + 4) v

def setOiNlink (m : Memory) (oi v : Nat) : Memory := store32 m (oi + 8) v

def setOiMode (m : Memory) (oi v : Nat) : Memory := store32 m (oi + 12) v

def setOiDirect (m : Memory) (oi i v : Nat) : Memory := store32 m (oi + 16 + 4 * i) v

def setOiIndirect (m : Memory) (oi v : Nat) : Memory := store32 m (oi + 56) v

def setOiIndirect2 (m : Memory) (oi v : Nat) : Memory := store32 m (oi + 60) v

/-! ## Bitvectors -/

def bitvectorSet (m : Memory) (vector i : Nat) : Memory :=
  store32 m (vector + 4 * (i / 32))
    (load32 m (vector + 4 * (i / 32)) ||| 1 <<< (i % 32))

def bitvectorClear (m : Memory) (vector i : Nat) : Memory :=
  store32 m (vector + 4 * (i / 32))
    (load32 m (vector + 4 * (i / 32)) &&& (2 ^ 32 - 1 ^^^ 1 <<< (i % 32)))

def bitvectorTest (m : Memory) (vector i : Nat) : Bool :=
  (load32 m (vector + 4 * (i / 32))).testBit (i % 32)

/-! ## Helper functions -/

def ospfsSize2nblocks (size : Nat) : Nat := (size + 1024 - 1) % 2 ^ 32 / 1024

def ospfsBlock (blockno : Nat) : Nat := blockno * 1024 % 2 ^ 32

/-- `none` is the null pointer. -/
def ospfsInode (m : Memory) (ino : Nat) : Option Nat :=
  if ino ≥ osNinodes m then none
  else some (ospfsBlock (osFirstinob m) + 64 * ino)

def ospfsInodeBlockno (m : Memory) (oi offset : Nat) : Nat :=
  let blockno := offset / 1024
  if offset ≥ oiSize m oi ∨ oiFtype m oi = ftypeSymlink then 0
  else if blockno ≥ 10 + 256 then
    let blockoff := blockno - (10 + 256)
    let indirectBlock :=
      ospfsBlock (load32 m (ospfsBlock (oiIndirect2 m oi) + 4 * (blockoff / 256)))
    load32 m (indirectBlock + 4 * (blockoff % 256))
  else if blockno ≥ 10 then
    load32 m (ospfsBlock (oiIndirect m oi) + 4 * (blockno - 10))
  else oiDirect m oi blockno

def ospfsInodeData (m : Memory) (oi offset : Nat) : Nat :=
  ospfsBlock (ospfsInodeBlockno m oi offset) + offset % 1024

/-! ## Free-block bitmap -/

/-- `OSPFS_FREEMAP_BLK` -/
def freemap : Nat := ospfsBlock 2

/-- The block number is 0 when the disk is full. -/
def allocateBlock (m : Memory) : Nat × Memory :=
  match (List.range (osNblocks m)).find? (bitvectorTest m freemap) with
  | some i => (i, bitvectorClear m freemap i)
  | none => (0, m)

def freeBlock (m : Memory) (blockno : Nat) : Memory :=
  let firstBlk := osFirstinob m + osNinodes m / 16
  if blockno < osNblocks m ∧ blockno ≥ firstBlk then bitvectorSet m freemap blockno
  else m

/-! ## Simple facts -/

theorem ospfsBlock_of_lt {b : Nat} (h : b < 2 ^ 22) : ospfsBlock b = 1024 * b := by
  unfold ospfsBlock
  omega

theorem freemap_eq : freemap = 2048 := rfl

end Cs111Labs.Ospfs
