import Cs111Labs.Ospfs.Directory

/-!
# Regular files
-/

namespace Cs111Labs.Ospfs

open Foundation Memory

/-- The changes that `ospfs_notify_change` is asked for. -/
structure Iattr where
  iaSize : Option Nat := none
  iaMode : Option Nat := none
  deriving DecidableEq, Repr

/-- `setattr` is what `inode_change_ok` and `inode_setattr` return. -/
def ospfsNotifyChange (m : Memory) (ino : Nat) (attr : Iattr)
    (setattr : Option Errno) : Option Errno × Memory :=
  match ospfsInode m ino with
  | none => (some .oops, m)
  | some oi =>
      let sized : Option Errno × Memory :=
        match attr.iaSize with
        | none => (none, m)
        | some size =>
            if oiFtype m oi = ftypeDir then (some .eperm, m)
            else changeSize m oi (size % 2 ^ 32)
      match sized, attr.iaMode with
      | (some errno, m), _ => (some errno, m)
      | (none, m), none => (setattr, m)
      | (none, m), some mode => (setattr, setOiMode m oi mode)

/--
A user buffer; `none` is a byte that cannot be read.  The bytes after it are
copied as zeros.
-/
abbrev UserBuffer := Nat → Option UInt8

/-- `copy_from_user`; true if all bytes could be read. -/
def copyFromUser (m : Memory) (dst : Nat) (buffer : UserBuffer) (start n : Nat) :
    Bool × Memory :=
  let bytes := (List.range n).map fun i => buffer (start + i)
  let readable := bytes.takeWhile Option.isSome
  (readable.length = n,
    copy m dst (readable.map (·.getD 0) ++ List.replicate (n - readable.length) 0))

/-- The number of bytes to write in one block. -/
def chunk (fPos rest : Nat) : Nat :=
  if 1024 - fPos % 1024 > rest then rest else 1024 - fPos % 1024

/-- The loop of `ospfs_write`; each round writes at least one byte. -/
def writeLoop (oi : Nat) (buffer : UserBuffer) (count : Nat) :
    Nat → Nat → Nat → Memory → Except Errno Nat × Nat × Memory
  | 0, amount, fPos, m => (.ok amount, fPos, m)
  | rounds + 1, amount, fPos, m =>
      if amount < count then
        let blockno := ospfsInodeBlockno m oi (fPos % 2 ^ 32)
        if blockno = 0 then (.error .eio, fPos, m)
        else
          let n := chunk fPos (count - amount)
          match copyFromUser m (ospfsBlock blockno + fPos % 1024) buffer amount n with
          | (false, m) => (.error .efault, fPos, m)
          | (true, m) => writeLoop oi buffer count rounds (amount + n) (fPos + n) m
      else (.ok amount, fPos, m)

/-- `append` is the flag `O_APPEND`; the position is returned with the result. -/
def ospfsWrite (m : Memory) (ino : Nat) (append : Bool) (buffer : UserBuffer)
    (count fPos : Nat) : Except Errno Nat × Nat × Memory :=
  match ospfsInode m ino with
  | none => (.error .oops, fPos, m)
  | some oi =>
      let fPos := if append then oiSize m oi else fPos
      if count + fPos > oiSize m oi then
        match changeSize m oi ((count + fPos) % 2 ^ 32) with
        | (some errno, m) => (.error errno, fPos, m)
        | (none, m) => writeLoop oi buffer count count 0 fPos m
      else writeLoop oi buffer count count 0 fPos m

/-! ## Reading -/

/-- The bytes of a user buffer that can be written. -/
abbrev UserSpace := Nat → Bool

/-- `copy_to_user`; true if all bytes could be written. -/
def copyToUser (m : Memory) (src : Nat) (space : UserSpace) (start n : Nat) :
    Bool × List UInt8 :=
  let writable := (List.range n).takeWhile fun i => space (start + i)
  (writable.length = n, writable.map fun i => m (src + i))

/--
The loop of `ospfs_read`, with the bytes that the user has got.  Each round reads
at least one byte.
-/
def readLoop (m : Memory) (oi : Nat) (space : UserSpace) (count : Nat) :
    Nat → Nat → Nat → List UInt8 → Except Errno Nat × Nat × List UInt8
  | 0, amount, fPos, bytes => (.ok amount, fPos, bytes)
  | rounds + 1, amount, fPos, bytes =>
      if amount < count then
        let blockno := ospfsInodeBlockno m oi (fPos % 2 ^ 32)
        if blockno = 0 then (.error .eio, fPos, bytes)
        else
          let n := chunk fPos (count - amount)
          match copyToUser m (ospfsBlock blockno) space amount n with
          | (false, got) => (.error .efault, fPos, bytes ++ got)
          | (true, got) => readLoop m oi space count rounds (amount + n) (fPos + n) (bytes ++ got)
      else (.ok amount, fPos, bytes)

/-- `count` has 32 bits and the position 64; the kernel keeps their sum below `2 ^ 63`. -/
def readCount (size count fPos : Nat) : Nat :=
  if fPos + count > size then (((size : Int) - fPos) % 2 ^ 32).toNat else count

/-- The position and the bytes that the user has got are returned with the result. -/
def ospfsRead (m : Memory) (ino : Nat) (space : UserSpace) (count fPos : Nat) :
    Except Errno Nat × Nat × List UInt8 :=
  match ospfsInode m ino with
  | none => (.error .oops, fPos, [])
  | some oi =>
      let count := readCount (oiSize m oi) count fPos
      readLoop m oi space count count 0 fPos []

end Cs111Labs.Ospfs
