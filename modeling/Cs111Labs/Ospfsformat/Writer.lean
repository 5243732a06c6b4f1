import Cs111Labs.Image.Hardlinks
import Cs111Labs.Ospfs.Directory
import Cs111Labs.Ospfs.Formatter

/-!
# ospfsformat

The blocks are changed in place, as the block cache is transparent.  `none`
stands for `abort`.  The option `-c` is left out.
-/

namespace Cs111Labs.Ospfsformat

open Foundation Memory Ospfs
open Image (Hardlink getHardlink addHardlink)

/-! ## The host -/

/--
The entries of a directory as `readdir` gives them, without sockets and the
like.  The number `hostIno` is 0 for a file with one name.
-/
inductive HostTree where
  | nil
  | reg (name : Name) (hostIno : BitVec 64) (mode : Nat) (bytes : List UInt8) (rest : HostTree)
  | dir (name : Name) (mode : Nat) (entries rest : HostTree)
  | symlink (name : Name) (hostIno : BitVec 64) (text : Name) (rest : HostTree)

/-- `"."`, `".."`, `"CVS"`, `".svn"` and `".git"` -/
def skippedNames : List Name :=
  [[46], [46, 46], [67, 86, 83], [46, 115, 118, 110], [46, 103, 105, 116]]

/-! ## Blocks -/

/-- The blocks and the variables of the program. -/
structure Writer where
  disk : Memory
  nextb : Nat
  nextinode : Nat
  hardlinks : List Hardlink

/-- The block is at `ospfsBlock bno`. -/
def getblk (o : Opened) (bno : Nat) (clr : Bool) (disk : Memory) : Option Memory :=
  if bno ≥ o.nblocks then none
  else some (if clr then eraseBlock disk bno else disk)

/-- The block that the word at `a` points to is taken; it is a new one if the word is 0. -/
def pointedBlock (o : Opened) (a : Nat) (s : Writer) : Option Writer :=
  if load32 s.disk a = 0 then
    (getblk o s.nextb true s.disk).map fun disk =>
      { s with disk := store32 disk a s.nextb, nextb := s.nextb + 1 }
  else (getblk o (load32 s.disk a) false s.disk).map fun disk => { s with disk := disk }

def storeblk (o : Opened) (ino bno nblk : Nat) (s : Writer) : Option Writer :=
  if nblk < 10 then some { s with disk := setOiDirect s.disk ino nblk bno }
  else if nblk < 10 + 256 then do
    let s ← pointedBlock o (ino + 56) s
    let bindir := ospfsBlock (oiIndirect s.disk ino)
    some { s with disk := store32 s.disk (bindir + 4 * (nblk - 10)) bno }
  else if nblk < Slot.maxfileblks then do
    let s ← pointedBlock o (ino + 60) s
    let bindir2 := ospfsBlock (oiIndirect2 s.disk ino)
    let nblk := nblk - (10 + 256)
    let s ← pointedBlock o (bindir2 + 4 * (nblk / 256)) s
    let bindir := ospfsBlock (load32 s.disk (bindir2 + 4 * (nblk / 256)))
    some { s with disk := store32 s.disk (bindir + 4 * (nblk % 256)) bno }
  else none

/-! ## Inodes and directory entries -/

/-- Where an inode is in its block. -/
def inodePointer (o : Opened) (ino : Nat) : Nat :=
  ospfsBlock (o.firstinob + ino / 16) + 64 * (ino % 16)

/-- The inode has the number `nextinode`. -/
def allocinode (o : Opened) (s : Writer) : Option Writer :=
  if s.nextinode = o.ninodes then none
  else
    (getblk o (o.firstinob + s.nextinode / 16) false s.disk).map fun disk =>
      { s with disk := disk, nextinode := s.nextinode + 1 }

/-- The address of a block of a directory. -/
def directoryBlock (o : Opened) (dirino nblk : Nat) (disk : Memory) : Option Nat :=
  if nblk ≥ 10 + 256 then do
    let off := nblk - 10 - 256
    let disk ← getblk o (oiIndirect2 disk dirino) false disk
    let bindir := load32 disk (ospfsBlock (oiIndirect2 disk dirino) + 4 * (off / 256))
    let disk ← getblk o bindir false disk
    let dirb := load32 disk (ospfsBlock bindir + 4 * (off % 256))
    (getblk o dirb false disk).map fun _ => ospfsBlock dirb
  else if nblk ≥ 10 then do
    let disk ← getblk o (oiIndirect disk dirino) false disk
    let dirb := load32 disk (ospfsBlock (oiIndirect disk dirino) + 4 * (nblk - 10))
    (getblk o dirb false disk).map fun _ => ospfsBlock dirb
  else (getblk o (oiDirect disk dirino nblk) false disk).map fun _ =>
    ospfsBlock (oiDirect disk dirino nblk)

/-- The part from `new_dirb` on; the directory has `nblk` blocks. -/
def newDirectoryBlock (o : Opened) (dirino nblk : Nat) (s : Writer) : Option Writer := do
  let disk ← getblk o s.nextb true s.disk
  let disk := (List.range 8).foldl
    (fun disk i => setOdIno disk (ospfsBlock s.nextb + 128 * i) 0) disk
  let s' ← storeblk o dirino s.nextb nblk { s with disk := disk, nextb := s.nextb + 1 }
  let disk := setOiSize s'.disk dirino (oiSize s'.disk dirino + 1024)
  -- the assertion
  if (nblk + 1) * 1024 % 2 ^ 32 = oiSize disk dirino then some { s' with disk := disk }
  else none

/-- The address of the entry and what is there then. -/
structure Direntry where
  od : Nat
  writer : Writer

/-- A null pointer is returned for a long name; all callers follow it. -/
def allocdirentry (o : Opened) (dirino : Nat) (name : Name) (s : Writer) : Option Direntry :=
  if name.length > 123 then none
  else
    let nblk := ospfsSize2nblocks (oiSize s.disk dirino)
    let gotit (od : Nat) (s : Writer) : Direntry :=
      ⟨od, { s with disk := setOdName s.disk od name }⟩
    let newDirb := (newDirectoryBlock o dirino nblk s).map (gotit (ospfsBlock s.nextb))
    if nblk = 0 then newDirb
    else do
      let dirb ← directoryBlock o dirino (nblk - 1) s.disk
      match (List.range 8).find? fun i => odIno s.disk (dirb + 128 * i) = 0 with
      | some i => some (gotit (dirb + 128 * i) s)
      | none => newDirb

/-! ## Files -/

/-- The file is not one that has been stored under another name. -/
def newInode (o : Opened) (od : Nat) (hostIno : BitVec 64) (s : Writer) : Option Writer :=
  (allocinode o s).map fun s' =>
    { s' with
      disk := setOiNlink (setOdIno s'.disk od s.nextinode) (inodePointer o s.nextinode) 1
      hardlinks :=
        if hostIno ≠ 0 then
          addHardlink false s.hardlinks hostIno (BitVec.ofNat 32 s.nextinode) none
        else s.hardlinks }

/-- One more name for a file. -/
def namedAgain (o : Opened) (od ino : Nat) (s : Writer) : Option Writer :=
  (getblk o (o.firstinob + ino / 16) false (setOdIno s.disk od ino)).map fun disk =>
    { s with disk :=
      setOiNlink disk (inodePointer o ino) (oiNlink disk (inodePointer o ino) + 1) }

/-- 0 if there is no inode for the file yet. -/
def hardlinkIno (hostIno : BitVec 64) (s : Writer) : Nat :=
  if hostIno ≠ 0 then (getHardlink false s.hardlinks hostIno none).toNat else 0

/-- The loop that copies the contents, from block `nblk` on. -/
def copyBlocks (o : Opened) (ino nblk : Nat) (bytes : List UInt8) (s : Writer) :
    Option Writer := do
  let disk ← getblk o s.nextb true s.disk
  let chunk := bytes.take 1024
  if hend : bytes = [] then some { s with disk := setOiSize disk ino (nblk * 1024) }
  else
    let s ← storeblk o ino s.nextb nblk
      { s with disk := copy disk (ospfsBlock s.nextb) chunk, nextb := s.nextb + 1 }
    if chunk.length < 1024 then
      some { s with disk := setOiSize s.disk ino (nblk * 1024 + chunk.length) }
    else copyBlocks o ino (nblk + 1) (bytes.drop 1024) s
termination_by bytes.length
decreasing_by
  have hpos := List.length_pos_of_ne_nil hend
  rw [List.length_drop]
  omega

def writefile (o : Opened) (dirino : Nat) (name : Name) (hostIno : BitVec 64) (mode : Nat)
    (bytes : List UInt8) (s : Writer) : Option Writer := do
  let de ← allocdirentry o dirino name s
  let s := de.writer
  if hardlinkIno hostIno s = 0 then
    let ino := inodePointer o s.nextinode
    let s ← newInode o de.od hostIno s
    copyBlocks o ino 0 bytes
      { s with disk := setOiMode (setOiFtype s.disk ino ftypeReg) ino mode }
  else namedAgain o de.od (hardlinkIno hostIno s) s

def addsymlink (o : Opened) (dirino : Nat) (name : Name) (linkbuf : Name)
    (hostIno : BitVec 64) (s : Writer) : Option Writer := do
  let de ← allocdirentry o dirino name s
  let s := de.writer
  if hardlinkIno hostIno s = 0 then
    let sino := inodePointer o s.nextinode
    let s ← newInode o de.od hostIno s
    let disk := setOiFtype s.disk sino ftypeSymlink
    -- `strcpy`
    let disk := copy (copy disk (sino + 12) linkbuf) (sino + 12 + linkbuf.length) [0]
    some { s with disk := setOiSize disk sino linkbuf.length }
  else namedAgain o de.od (hardlinkIno hostIno s) s

def writesymlink (o : Opened) (dirino : Nat) (name : Name) (text : Name)
    (hostIno : BitVec 64) (s : Writer) : Option Writer :=
  if text.length > 51 then some s else addsymlink o dirino name text hostIno s

/-- The first part of `writedirectory`, which is not for the root. -/
def newDirectory (o : Opened) (dirino : Nat) (name : Name) (mode : Nat) (s : Writer) :
    Option Writer := do
  let de ← allocdirentry o dirino name s
  let ino := inodePointer o de.writer.nextinode
  let s ← allocinode o de.writer
  let disk := setOdIno s.disk de.od de.writer.nextinode
  let disk := setOiNlink disk dirino (oiNlink disk dirino + 1)
  let disk := setOiFtype disk ino ftypeDir
  let disk := setOiSize disk ino 0
  let disk := setOiNlink disk ino 1
  some { s with disk := setOiMode disk ino mode }

/-- The loop of `writedirectory`. -/
def writeEntries (o : Opened) (dirino : Nat) : HostTree → Writer → Option Writer
  | .nil, s => some s
  | .reg name hostIno mode bytes rest, s =>
      (writefile o dirino name hostIno mode bytes s).bind (writeEntries o dirino rest)
  | .dir name mode entries rest, s =>
      if name ∈ skippedNames then writeEntries o dirino rest s
      else
        ((newDirectory o dirino name mode s).bind
          (writeEntries o (inodePointer o s.nextinode) entries)).bind
            (writeEntries o dirino rest)
  | .symlink name hostIno text rest, s =>
      (writesymlink o dirino name text hostIno s).bind (writeEntries o dirino rest)

/-! ## The image -/

/-- The part of `opendisk` that writes blocks, to a file of zeros. -/
def emptyImage (o : Opened) : Option Memory := do
  let disk ← (List.range (o.firstinob - 2)).foldlM
    (fun disk i => (getblk o (2 + i) false disk).map fun disk =>
      fill disk (ospfsBlock (2 + i)) 1024 0xFF) fun _ => 0
  (List.range (o.nextb - o.firstinob)).foldlM
    (fun disk i => getblk o (o.firstinob + i) true disk) disk

/-- The inode in front of the root, and the root. -/
def reservedInodes (o : Opened) (s : Writer) : Option Writer := do
  -- `nextinode` is 0 and the loop runs once
  let s ← allocinode o s
  let s := { s with disk := setOiNlink s.disk (inodePointer o 0) 1 }
  let s ← allocinode o s
  let rootino := inodePointer o 1
  some { s with
    disk := setOiMode (setOiNlink (setOiFtype s.disk rootino ftypeDir) rootino 1) rootino 0o777 }

/-- The bits of the blocks that are used, of those past the disk, and the superblock. -/
def finishfs (o : Opened) (s : Writer) : Option Memory := do
  let nbitblock := o.firstinob - 2
  let disk ← (List.range s.nextb).foldlM
    (fun disk i => (getblk o (2 + i / 8192) false disk).map fun disk =>
      bitvectorClear disk (ospfsBlock (2 + i / 8192)) (i % 8192)) s.disk
  let disk ←
    if o.nblocks ≠ nbitblock * 8192 then
      (getblk o (2 + nbitblock - 1) false disk).map fun disk =>
        (List.range' (o.nblocks % 8192) (8192 - o.nblocks % 8192)).foldl
          (fun disk i => bitvectorClear disk (ospfsBlock (2 + nbitblock - 1)) i) disk
    else some disk
  let disk ← getblk o 1 true disk
  some (store32 (store32 (store32 (store32 disk 1024 0x013101AE) 1028 o.nblocks)
    1032 o.ninodes) 1036 o.firstinob)

/-- A symbolic link that is asked for with `-l`. -/
structure LinkRecord where
  source : Name
  destination : Name

/--
`main`, with `-r` and a directory.  The image of some files is that of a
directory with these files.
-/
def ospfsformat (nblocks ninodes : Nat) (tree : HostTree) (links : List LinkRecord) :
    Option Memory :=
  if AcceptsSizes nblocks ninodes then do
    let o := opendisk nblocks ninodes
    let disk ← emptyImage o
    let s ← reservedInodes o ⟨disk, o.nextb, 0, []⟩
    let rootino := inodePointer o 1
    let s ← writeEntries o rootino tree s
    let s ← links.foldlM (fun s l => addsymlink o rootino l.destination l.source 0 s) s
    finishfs o s
  else none

end Cs111Labs.Ospfsformat
