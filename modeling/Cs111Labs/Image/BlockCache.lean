import Cs111Labs.Foundation.Memory

/-!
# The block cache of ospfsformat

Sixteen slots in front of the disk file.  The host is little-endian, so a word
in a buffer has its least significant byte first.
-/

namespace Cs111Labs.Image

open Foundation

/-! ## Blocks -/

/-- The bytes of a block. -/
abbrev Content := Fin 1024 → UInt8

namespace Content

def zero : Content := fun _ => 0

def toMemory (u : Content) : Memory :=
  fun a => if h : a < 1024 then u ⟨a, h⟩ else 0

def ofMemory (m : Memory) : Content := fun i => m i

@[simp] theorem ofMemory_toMemory (u : Content) : ofMemory u.toMemory = u := by
  funext i
  simp [ofMemory, toMemory]

end Content

/-- `BLOCK_*` -/
inductive BlockType where
  | super
  | dir
  | file
  | bits
  | inodes
  deriving DecidableEq, Repr

/-- `struct Block` -/
structure Block where
  bno : Nat := 0
  type : BlockType := .super
  busy : Nat := 0
  used : Nat := 0
  u : Content := Content.zero

/-! ## Byte order -/

/-- The word at `a` is read in the host's order and stored byte for byte. -/
def swizzle (a : Nat) (u : Content) : Content :=
  .ofMemory (Memory.store32 u.toMemory a (Memory.load32 u.toMemory a))

def swizzleWords (words : List Nat) (u : Content) : Content :=
  words.foldl (fun u a => swizzle a u) u

/-- The words of an inode in the order of its fields. -/
def swizzleinode (inode : Nat) (u : Content) : Content :=
  if Memory.load32 u.toMemory (inode + 8) = 0 then u
  else swizzleWords ([0, 4, 12, 8].map (inode + ·) ++
    (List.range 10).map (inode + 16 + 4 * ·) ++ [inode + 56, inode + 60]) u

def swizzledirentry (direntry : Nat) (u : Content) : Content :=
  if u.toMemory (direntry + 4) = 0 then u else swizzle direntry u

def swizzleblock (b : Block) : Block :=
  { b with u :=
      match b.type with
      | .super => swizzleWords [0, 4, 8, 12] b.u
      | .dir => (List.range 8).foldl (fun u i => swizzledirentry (128 * i) u) b.u
      | .file => b.u
      | .bits => swizzleWords ((List.range 256).map (4 * ·)) b.u
      | .inodes => (List.range 16).foldl (fun u i => swizzleinode (64 * i) u) b.u }

/-! ## The cache -/

abbrev Slot := Fin 16

/-- `cache`, the disk file and the static `t` of `getblk`, an `int` that
wraps. -/
structure Formatter where
  cache : Slot → Block := fun _ => {}
  disk : Memory
  t : Nat := 1

def Formatter.setBlock (s : Formatter) (i : Slot) (b : Block) : Formatter :=
  { s with cache := Function.update s.cache i b }

/-- The file position of a block, computed with `uint32_t`. -/
def position (bno : Nat) : Nat := bno * 1024 % 2 ^ 32

def readBlock (disk : Memory) (bno : Nat) : Content :=
  fun i => disk (position bno + i)

def writeBlock (disk : Memory) (bno : Nat) (u : Content) : Memory :=
  Memory.copy disk (position bno) (List.ofFn u)

def flushb (i : Slot) (s : Formatter) : Formatter :=
  let s := s.setBlock i (swizzleblock (s.cache i))
  let s := { s with disk := writeBlock s.disk (s.cache i).bno (s.cache i).u }
  s.setBlock i (swizzleblock (s.cache i))

/-- What the search of `getblk` ends with. -/
inductive Search where
  | found (i : Slot)
  | least (i : Option Slot)

/-- The loop of `getblk` over the slots that are left. -/
def search (cache : Slot → Block) (bno : Nat) : List Slot → Option Slot → Search
  | [], least => .least least
  | i :: slots, least =>
      if (cache i).bno = bno then .found i
      else if (cache i).busy = 0 ∧
          (∀ j ∈ least, (cache i).used < (cache j).used) then
        search cache bno slots (some i)
      else search cache bno slots least

/-- From the label `out` on; a failed `assert` gives no result. -/
def getblkOut (i : Slot) (clr : Bool) (type : BlockType) (s : Formatter) :
    Option (Slot × Formatter) :=
  let t := (s.t + 1) % 2 ^ 32
  let b := s.cache i
  let b := { b with u := if clr then Content.zero else b.u }
  let b := { b with used := t, busy := (b.busy + 1) % 2 ^ 32 }
  if b.type = type ∨ b.busy = 1 then
    some (i, { s.setBlock i { b with type := type } with t := t })
  else none

/-- The calls of `abort` give no result. -/
def getblk (nblocks bno : Nat) (clr : Bool) (type : BlockType) (s : Formatter) :
    Option (Slot × Formatter) :=
  if bno ≥ nblocks then none
  else
    match search s.cache bno (List.finRange 16) none with
    | .found i => getblkOut i clr type s
    | .least none => none
    | .least (some i) =>
        let s := if (s.cache i).used ≠ 0 then flushb i s else s
        let b := { s.cache i with u := readBlock s.disk bno, bno := bno }
        -- the type is still that of the block that was here before
        let b := if clr then b else swizzleblock b
        getblkOut i clr type (s.setBlock i { b with busy := 0, type := type })

def putblk (i : Slot) (s : Formatter) : Formatter :=
  s.setBlock i { s.cache i with busy := ((s.cache i).busy + (2 ^ 32 - 1)) % 2 ^ 32 }

def flushdisk (s : Formatter) : Formatter :=
  (List.finRange 16).foldl
    (fun s i => if (s.cache i).used ≠ 0 then flushb i s else s) s

/-! ## Little-endian hosts -/

@[simp] theorem swizzle_eq (a : Nat) (u : Content) : swizzle a u = u := by
  simp [swizzle, Memory.store32_load32]

@[simp] theorem swizzleWords_eq (words : List Nat) (u : Content) :
    swizzleWords words u = u := by
  induction words with
  | nil => rfl
  | cons a words ih =>
      rw [swizzleWords, List.foldl_cons, swizzle_eq]
      exact ih

@[simp] theorem swizzleinode_eq (inode : Nat) (u : Content) :
    swizzleinode inode u = u := by
  simp [swizzleinode]

@[simp] theorem swizzledirentry_eq (direntry : Nat) (u : Content) :
    swizzledirentry direntry u = u := by
  simp [swizzledirentry]

@[simp] theorem swizzleblock_eq (b : Block) : swizzleblock b = b := by
  unfold swizzleblock
  cases htype : b.type with
  | super => simp [← htype]
  | dir => simp [← htype]
  | file => simp [← htype]
  | bits => simp [← htype]
  | inodes => simp [← htype]

theorem flushb_eq (i : Slot) (s : Formatter) :
    flushb i s =
      { s with disk := writeBlock s.disk (s.cache i).bno (s.cache i).u } := by
  simp [flushb, Formatter.setBlock]

end Cs111Labs.Image
