import Cs111Labs.Ospfs.Disk

/-!
# Changing the size of a file

A return value `none` is 0.  The loops of `change_size` get as many rounds as
there are values of `ospfs_size2nblocks`; each round changes that value by one.
-/

namespace Cs111Labs.Ospfs

open Foundation Memory

inductive Errno where
  | enospc
  | eio
  | enoent
  | eexist
  | enametoolong
  | eperm
  | einval
  | enomem
  | efault
  /-- A null pointer is followed, and the kernel stops. -/
  | oops
  deriving DecidableEq, Repr

/-! ## Block indices -/

def indir2Index (b : Nat) : Int := if b < 10 + 256 then -1 else 0

def indirIndex (b : Nat) : Int :=
  if b < 10 then -1
  else if indir2Index b = 0 then ((b - 10 - 256) / 256 : Nat)
  else 0

def directIndex (b : Nat) : Nat :=
  if indirIndex b = -1 then b
  else if indirIndex b = 0 then b - 10
  else (b - 10 - 256) % 256

/-- `memset(ospfs_block(blockno), 0, OSPFS_BLKSIZE)` -/
def eraseBlock (m : Memory) (blockno : Nat) : Memory :=
  fill m (ospfsBlock blockno) 1024 0

/-! ## Adding a block -/

/-- The last step of `add_block`. -/
def grow (m : Memory) (oi : Nat) : Option Errno × Memory :=
  (none, setOiSize m oi (oiSize m oi + 1024))

/-- The branch for direct blocks. -/
def addDirect (m : Memory) (oi n : Nat) : Option Errno × Memory :=
  let (block, m) := allocateBlock m
  if block = 0 then (some .enospc, m)
  else grow (eraseBlock (setOiDirect m oi n block) block) oi

/--
The branch for blocks below the indirect block.  When that block existed and
the disk is full, block 0 is used.
-/
def addSingle (m : Memory) (oi n : Nat) : Option Errno × Memory :=
  let offset := directIndex n
  let finish (m : Memory) (allocated : Nat) : Option Errno × Memory :=
    let indBlk := ospfsBlock (oiIndirect m oi)
    let (block, m) := allocateBlock m
    if block = 0 ∧ allocated ≠ 0 then
      (some .enospc, setOiIndirect (freeBlock m allocated) oi 0)
    else grow (eraseBlock (store32 m (indBlk + 4 * offset) block) block) oi
  if oiIndirect m oi = 0 then
    let (allocated, m) := allocateBlock m
    if allocated = 0 then (some .enospc, m)
    else
      let m := setOiIndirect m oi allocated
      finish (fill m (ospfsBlock (oiIndirect m oi)) 1024 0) allocated
  else finish m 0

/-- The branch for blocks below the doubly indirect block. -/
def addDouble (m : Memory) (oi n : Nat) : Option Errno × Memory :=
  let offset0 := directIndex n
  let offset1 := (indirIndex n).toNat
  -- `in2block0` and `in2block1` are 0 for blocks that were there before
  let finish (m : Memory) (in2block0 in2block1 : Nat) : Option Errno × Memory :=
    let (in2block2, m) := allocateBlock m
    if in2block2 = 0 then
      if in2block0 ≠ 0 ∧ in2block1 ≠ 0 then
        (some .enospc, freeBlock (freeBlock m in2block0) in2block1)
      else if in2block0 ≠ 0 ∨ in2block1 ≠ 0 then
        (some .enospc, freeBlock m in2block0)
      else (some .enospc, m)
    else
      let ptr2 := ospfsBlock (oiIndirect2 m oi)
      let ptr1 := ospfsBlock (load32 m (ptr2 + 4 * offset1))
      grow (eraseBlock (store32 m (ptr1 + 4 * offset0) in2block2) in2block2) oi
  let inner (m : Memory) (in2block0 : Nat) : Option Errno × Memory :=
    if offset0 = 0 then
      let (in2block1, m) := allocateBlock m
      if in2block1 = 0 then
        (some .enospc, if in2block0 ≠ 0 then freeBlock m in2block0 else m)
      else
        let ptr2 := ospfsBlock (oiIndirect2 m oi)
        finish (eraseBlock (store32 m (ptr2 + 4 * offset1) in2block1) in2block1)
          in2block0 in2block1
    else finish m in2block0 0
  if oiIndirect2 m oi = 0 then
    let (in2block0, m) := allocateBlock m
    if in2block0 = 0 then (some .enospc, m)
    else inner (eraseBlock (setOiIndirect2 m oi in2block0) in2block0) in2block0
  else inner m 0

def addBlock (m : Memory) (oi : Nat) : Option Errno × Memory :=
  let n := ospfsSize2nblocks (oiSize m oi)
  if indir2Index n = 0 then addDouble m oi n
  else if indirIndex n = 0 then addSingle m oi n
  else addDirect m oi n

/-! ## Removing a block -/

/-- The last step of `remove_block`. -/
def shrink (m : Memory) (oi : Nat) : Option Errno × Memory :=
  (none, setOiSize m oi ((oiSize m oi + (2 ^ 32 - 1024)) % 2 ^ 32))

def removeDirect (m : Memory) (oi offset0 : Nat) : Option Errno × Memory :=
  if oiDirect m oi offset0 = 0 then (some .eio, m)
  else shrink (setOiDirect (freeBlock m (oiDirect m oi offset0)) oi offset0 0) oi

/-- `offset1` is 0 for every block of the indirect block. -/
def removeSingle (m : Memory) (oi offset0 : Nat) (offset1 : Int) :
    Option Errno × Memory :=
  let blockN := ospfsBlock (oiIndirect m oi) + 4 * offset0
  let m := fill (freeBlock m (load32 m blockN)) blockN 4 0
  if offset1 = 0 then
    shrink (setOiIndirect (freeBlock m (oiIndirect m oi)) oi 0) oi
  else shrink m oi

def removeDouble (m : Memory) (oi offset0 offset1 : Nat) : Option Errno × Memory :=
  let indN := ospfsBlock (oiIndirect2 m oi) + 4 * offset1
  let blockN := ospfsBlock (load32 m indN) + 4 * offset0
  if load32 m indN = 0 then (some .eio, m)
  else if load32 m blockN = 0 then (some .eio, m)
  else
    let m := fill (freeBlock m (load32 m blockN)) blockN 4 0
    if offset0 = 0 then
      let m := fill (freeBlock m (load32 m indN)) indN 4 0
      if offset1 = 0 then
        shrink (setOiIndirect2 (freeBlock m (oiIndirect2 m oi)) oi 0) oi
      else shrink m oi
    else shrink m oi

def removeBlock (m : Memory) (oi : Nat) : Option Errno × Memory :=
  let n := ospfsSize2nblocks (oiSize m oi)
  let offset0 := directIndex (n - 1)
  let offset1 := indirIndex (n - 1)
  if n = 0 then (none, m)
  else if n ≤ 10 then removeDirect m oi offset0
  else if n > 10 ∧ n ≤ 10 + 256 then removeSingle m oi offset0 offset1
  else removeDouble m oi offset0 offset1.toNat

/-! ## `change_size` -/

/-- More than `ospfs_size2nblocks` returns. -/
def maxRounds : Nat := 2 ^ 22

/-- The loop over `add_block`; the second component is `counter`. -/
def growLoop (oi newSize : Nat) : Nat → Nat → Memory → Option Errno × Nat × Memory
  | 0, counter, m => (none, counter, m)
  | rounds + 1, counter, m =>
      if ospfsSize2nblocks (oiSize m oi) < ospfsSize2nblocks newSize then
        match addBlock m oi with
        | (none, m') => growLoop oi newSize rounds (counter + 1) m'
        | (some errno, m') => (some errno, counter, m')
      else (none, counter, m)

/-- The loop over `remove_block`, entered with the return value `r`. -/
def shrinkLoop (oi newSize : Nat) : Nat → Option Errno → Memory → Option Errno × Memory
  | 0, r, m => (r, m)
  | rounds + 1, r, m =>
      if ospfsSize2nblocks (oiSize m oi) > ospfsSize2nblocks newSize then
        match removeBlock m oi with
        | (none, m') => shrinkLoop oi newSize rounds none m'
        | (some errno, m') => (some errno, m')
      else (r, m)

/-- The blocks that were added are removed again, whatever the results. -/
def rollBack (oi : Nat) : Nat → Memory → Memory
  | 0, m => m
  | counter + 1, m => rollBack oi counter (removeBlock m oi).2

def changeSize (m : Memory) (oi newSize : Nat) : Option Errno × Memory :=
  let oldSize := oiSize m oi
  let (r, counter, m) := growLoop oi newSize maxRounds 0 m
  let (newSize, m) :=
    if r.isSome then (oldSize, rollBack oi counter m) else (newSize, m)
  let (r, m) := shrinkLoop oi newSize maxRounds r m
  (r, setOiSize m oi newSize)

end Cs111Labs.Ospfs
