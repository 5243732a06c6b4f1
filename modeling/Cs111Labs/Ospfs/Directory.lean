import Cs111Labs.Ospfs.Resize

/-!
# Directories

The kernel passes inode numbers and names; a name is the bytes of `d_name`.
`newInode` tells whether `new_inode` succeeds.
-/

namespace Cs111Labs.Ospfs

open Foundation Memory

abbrev Name := List UInt8

/-! ## Directory entries -/

def odIno (m : Memory) (od : Nat) : Nat := load32 m od

def odName (m : Memory) (od : Nat) : Name := cstring m 124 (od + 4)

def setOdIno (m : Memory) (od v : Nat) : Memory := store32 m od v

/-- `strncpy` and the assignment of the terminating zero. -/
def setOdName (m : Memory) (od : Nat) (name : Name) : Memory :=
  copy (copy m (od + 4) name) (od + 4 + name.length) [0]

/-- The test by `od_ino`, `strlen` and `memcmp`. -/
def isEntry (m : Memory) (name : Name) (od : Nat) : Bool :=
  odIno m od > 0 && odName m od = name

/-- The rounds of a loop over the entries. -/
def entryCount (m : Memory) (dirOi : Nat) : Nat := (oiSize m dirOi + 127) / 128

/-- The offset at which a loop over the entries stops. -/
def findOffset (m : Memory) (dirOi : Nat) (stop : Nat → Bool) : Option Nat :=
  ((List.range (entryCount m dirOi)).map (128 * ·)).find? fun off =>
    stop (ospfsInodeData m dirOi off)

def findDirentry (m : Memory) (dirOi : Nat) (name : Name) : Option Nat :=
  (findOffset m dirOi (isEntry m name)).map (ospfsInodeData m dirOi)

def createBlankDirentry (m : Memory) (dirOi : Nat) : Except Errno Nat × Memory :=
  match findOffset m dirOi fun od => odIno m od = 0 with
  | some off => (.ok (ospfsInodeData m dirOi off), m)
  | none =>
      match changeSize m dirOi ((oiSize m dirOi + 128) % 2 ^ 32) with
      | (some errno, m') => (.error errno, m')
      | (none, m') => (.ok (ospfsInodeData m' dirOi (128 * entryCount m dirOi)), m')

/-! ## Lookup -/

/-- The null pointer is `none`; an unknown type makes the kernel panic. -/
def ospfsMkLinuxInode (m : Memory) (ino : Nat) (newInode : Bool) :
    Except Errno (Option Nat) :=
  match ospfsInode m ino with
  | none => .ok none
  | some oi =>
      if newInode = false then .ok none
      else if oiFtype m oi = ftypeReg ∨ oiFtype m oi = ftypeDir ∨
          oiFtype m oi = ftypeSymlink then .ok (some ino)
      else .error .oops

/-- The inode of the dentry; `none` makes a negative dentry. -/
def ospfsDirLookup (m : Memory) (dir : Nat) (name : Name) (newInode : Bool) :
    Except Errno (Option Nat) :=
  match ospfsInode m dir with
  | none => .error .oops
  | some dirOi =>
      if name.length > 123 then .error .enametoolong
      else
        match findOffset m dirOi (isEntry m name) with
        | none => .ok none
        | some off =>
            match ospfsMkLinuxInode m (odIno m (ospfsInodeData m dirOi off)) newInode with
            | .error errno => .error errno
            | .ok none => .error .einval
            | .ok (some ino) => .ok (some ino)

/-! ## Removing an entry -/

/--
The entry at which the loop of `ospfs_unlink` ends.  The test for a missing
entry only works for sizes that are a multiple of 128.
-/
def unlinkEntry (m : Memory) (dirOi : Nat) (name : Name) : Option Nat :=
  match findOffset m dirOi (isEntry m name) with
  | some off => some (ospfsInodeData m dirOi off)
  | none =>
      if 128 * entryCount m dirOi = oiSize m dirOi then none
      else some (ospfsInodeData m dirOi (128 * (entryCount m dirOi - 1)))

/-- `ino` is the inode that the dentry holds. -/
def ospfsUnlink (m : Memory) (dir : Nat) (name : Name) (ino : Nat) :
    Option Errno × Memory :=
  match ospfsInode m dir with
  | none => (some .oops, m)
  | some dirOi =>
      match unlinkEntry m dirOi name, ospfsInode m ino with
      | none, _ => (some .enoent, m)
      | some _, none => (some .oops, m)
      | some od, some oi =>
          let m :=
            if oiFtype m oi = ftypeSymlink then copy (setOiSize m oi 0) (oi + 12) [0]
            else m
          let m := setOdIno m od 0
          let m := setOiNlink m oi ((oiNlink m oi + (2 ^ 32 - 1)) % 2 ^ 32)
          if oiNlink m oi = 0 then (none, (changeSize m oi 0).2) else (none, m)

/-! ## Adding an entry -/

def ospfsLink (m : Memory) (src dir : Nat) (name : Name) : Option Errno × Memory :=
  match ospfsInode m dir with
  | none => (some .oops, m)
  | some dirOi =>
      if name.length > 123 then (some .enametoolong, m)
      else if (findDirentry m dirOi name).isSome then (some .eexist, m)
      else
        match createBlankDirentry m dirOi with
        | (.error errno, m) => (some errno, m)
        | (.ok od, m) =>
            let m := setOdIno (setOdName m od name) od src
            match ospfsInode m src with
            | none => (some .oops, m)
            | some oi => (none, setOiNlink m oi (oiNlink m oi + 1))

/-- The first inode whose link count is 0. -/
def findInode (m : Memory) : Option Nat :=
  (List.range (osNinodes m)).find? fun ino =>
    oiNlink m (ospfsBlock (osFirstinob m) + 64 * ino) = 0

/-- What `ospfs_create` writes to the inode. -/
def initReg (m : Memory) (oi mode : Nat) : Memory :=
  let m := setOiSize m oi 0
  let m := setOiFtype m oi ftypeReg
  let m := setOiMode m oi mode
  let m := setOiNlink m oi 1
  let m := setOiIndirect m oi 0
  let m := setOiIndirect2 m oi 0
  (List.range 10).foldl (fun m i => setOiDirect m oi i 0) m

/-- What `ospfs_symlink` writes to the inode. -/
def initSymlink (m : Memory) (oi : Nat) (symname : Name) : Memory :=
  let m := setOiSize m oi symname.length
  let m := setOiNlink m oi 1
  let m := setOiFtype m oi ftypeSymlink
  copy (copy m (oi + 12) symname) (oi + 12 + symname.length) [0]

/-- The return value after `ospfs_mk_linux_inode`. -/
def instantiate (m : Memory) (ino : Nat) (newInode : Bool) : Option Errno :=
  match ospfsMkLinuxInode m ino newInode with
  | .error errno => some errno
  | .ok none => some .enomem
  | .ok (some _) => none

/-- The common part of `ospfs_create` and `ospfs_symlink`. -/
def makeEntry (m : Memory) (dirOi : Nat) (name : Name)
    (initInode : Memory → Nat → Memory) (newInode : Bool) : Option Errno × Memory :=
  if (findDirentry m dirOi name).isSome then (some .eexist, m)
  else
    match findInode m with
    | none => (some .enospc, m)
    | some ino =>
        let oi := ospfsBlock (osFirstinob m) + 64 * ino
        match createBlankDirentry m dirOi with
        | (.error errno, m) => (some errno, m)
        | (.ok od, m) =>
            let m := initInode m oi
            let m := setOdName (setOdIno m od ino) od name
            (instantiate m ino newInode, m)

def ospfsCreate (m : Memory) (dir : Nat) (name : Name) (mode : Nat)
    (newInode : Bool) : Option Errno × Memory :=
  match ospfsInode m dir with
  | none => (some .oops, m)
  | some dirOi =>
      if name.length > 123 then (some .enametoolong, m)
      else makeEntry m dirOi name (fun m oi => initReg m oi mode) newInode

def ospfsSymlink (m : Memory) (dir : Nat) (name : Name) (symname : Name)
    (newInode : Bool) : Option Errno × Memory :=
  match ospfsInode m dir with
  | none => (some .oops, m)
  | some dirOi =>
      if name.length > 123 ∨ symname.length > 51 then (some .enametoolong, m)
      else makeEntry m dirOi name (fun m oi => initSymlink m oi symname) newInode

end Cs111Labs.Ospfs
