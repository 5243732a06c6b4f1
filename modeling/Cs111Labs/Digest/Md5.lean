import Cs111Labs.Foundation.Blocks

/-!
# The digest of a message

What `md5_process` of the peer does with a block of 64 bytes, and the digest of
a message: the registers after the blocks of the padded message, as bytes.
-/

namespace Cs111Labs

namespace Digest

open Foundation

/-! ## One block -/

structure Registers where
  a : BitVec 32
  b : BitVec 32
  c : BitVec 32
  d : BitVec 32
  deriving DecidableEq, Repr

def cell (block : List UInt8) (i : Nat) : BitVec 32 :=
  (block.getD i 0).toBitVec.setWidth 32

/-- `X[k]` -/
def word (block : List UInt8) (k : Nat) : BitVec 32 :=
  cell block (4 * k) + (cell block (4 * k + 1) <<< 8) + (cell block (4 * k + 2) <<< 16) +
    (cell block (4 * k + 3) <<< 24)

def rotateLeft (x : BitVec 32) (n : Nat) : BitVec 32 := (x <<< n) ||| (x >>> (32 - n))

def roundF (x y z : BitVec 32) : BitVec 32 := (x &&& y) ||| (~~~x &&& z)

def roundG (x y z : BitVec 32) : BitVec 32 := (x &&& z) ||| (y &&& ~~~z)

def roundH (x y z : BitVec 32) : BitVec 32 := x ^^^ y ^^^ z

def roundI (x y z : BitVec 32) : BitVec 32 := y ^^^ (x ||| ~~~z)

def tMask : BitVec 32 := ~~~0

/-- The arguments `k`, `s` and `Ti` of a line `SET(a, b, c, d, k, s, Ti)`. -/
abbrev Line := Nat × Nat × BitVec 32

/-- The next line has the registers one place further on. -/
def setLine (f : BitVec 32 → BitVec 32 → BitVec 32 → BitVec 32) (x : Nat → BitVec 32)
    (r : Registers) (line : Line) : Registers :=
  let t := r.a + f r.b r.c r.d + x line.1 + line.2.2
  ⟨r.d, rotateLeft t line.2.1 + r.b, r.b, r.c⟩

def lines1 : List Line :=
  [(0, 7, tMask ^^^ 0x28955b87), (1, 12, tMask ^^^ 0x173848a9), (2, 17, 0x242070db),
    (3, 22, tMask ^^^ 0x3e423111), (4, 7, tMask ^^^ 0x0a83f050), (5, 12, 0x4787c62a),
    (6, 17, tMask ^^^ 0x57cfb9ec), (7, 22, tMask ^^^ 0x02b96afe), (8, 7, 0x698098d8),
    (9, 12, tMask ^^^ 0x74bb0850), (10, 17, tMask ^^^ 0x0000a44e),
    (11, 22, tMask ^^^ 0x76a32841), (12, 7, 0x6b901122), (13, 12, tMask ^^^ 0x02678e6c),
    (14, 17, tMask ^^^ 0x5986bc71), (15, 22, 0x49b40821)]

def lines2 : List Line :=
  [(1, 5, tMask ^^^ 0x09e1da9d), (6, 9, tMask ^^^ 0x3fbf4cbf), (11, 14, 0x265e5a51),
    (0, 20, tMask ^^^ 0x16493855), (5, 5, tMask ^^^ 0x29d0efa2), (10, 9, 0x02441453),
    (15, 14, tMask ^^^ 0x275e197e), (4, 20, tMask ^^^ 0x182c0437), (9, 5, 0x21e1cde6),
    (14, 9, tMask ^^^ 0x3cc8f829), (3, 14, tMask ^^^ 0x0b2af278), (8, 20, 0x455a14ed),
    (13, 5, tMask ^^^ 0x561c16fa), (2, 9, tMask ^^^ 0x03105c07), (7, 14, 0x676f02d9),
    (12, 20, tMask ^^^ 0x72d5b375)]

def lines3 : List Line :=
  [(5, 4, tMask ^^^ 0x0005c6bd), (8, 11, tMask ^^^ 0x788e097e), (11, 16, 0x6d9d6122),
    (14, 23, tMask ^^^ 0x021ac7f3), (1, 4, tMask ^^^ 0x5b4115bb), (4, 11, 0x4bdecfa9),
    (7, 16, tMask ^^^ 0x0944b49f), (10, 23, tMask ^^^ 0x4140438f), (13, 4, 0x289b7ec6),
    (0, 11, tMask ^^^ 0x155ed805), (3, 16, tMask ^^^ 0x2b10cf7a), (6, 23, 0x04881d05),
    (9, 4, tMask ^^^ 0x262b2fc6), (12, 11, tMask ^^^ 0x1924661a), (15, 16, 0x1fa27cf8),
    (2, 23, tMask ^^^ 0x3b53a99a)]

def lines4 : List Line :=
  [(0, 6, tMask ^^^ 0x0bd6ddbb), (7, 10, 0x432aff97), (14, 15, tMask ^^^ 0x546bdc58),
    (5, 21, tMask ^^^ 0x036c5fc6), (12, 6, 0x655b59c3), (3, 10, tMask ^^^ 0x70f3336d),
    (10, 15, tMask ^^^ 0x00100b82), (1, 21, tMask ^^^ 0x7a7ba22e), (8, 6, 0x6fa87e4f),
    (15, 10, tMask ^^^ 0x01d3191f), (6, 15, tMask ^^^ 0x5cfebceb), (13, 21, 0x4e0811a1),
    (4, 6, tMask ^^^ 0x08ac817d), (11, 10, tMask ^^^ 0x42c50dca), (2, 15, 0x2ad7d2bb),
    (9, 21, tMask ^^^ 0x14792c6e)]


def md5Process (abcd : Registers) (data : List UInt8) : Registers :=
  let r := lines1.foldl (setLine roundF (word data)) abcd
  let r := lines2.foldl (setLine roundG (word data)) r
  let r := lines3.foldl (setLine roundH (word data)) r
  let r := lines4.foldl (setLine roundI (word data)) r
  ⟨abcd.a + r.a, abcd.b + r.b, abcd.c + r.c, abcd.d + r.d⟩

/-! ## The digest -/

def initial : Registers := ⟨0x67452301, 0xefcdab89, 0x98badcfe, 0x10325476⟩

def wordBytes (w : BitVec 32) : List UInt8 :=
  (List.range 4).map fun i => UInt8.ofBitVec ((w >>> (8 * i)).setWidth 8)

def Registers.bytes (r : Registers) : List UInt8 :=
  wordBytes r.a ++ wordBytes r.b ++ wordBytes r.c ++ wordBytes r.d

/-- A bit that is set, zeros up to 8 bytes from the end of a block, and the length in bits. -/
def padding (length : Nat) : List UInt8 :=
  128 :: List.replicate ((55 + 64 - length % 64) % 64) 0 ++
    (List.range 8).map fun i => (8 * length / 256 ^ i).toUInt8

def md5 (message : List UInt8) : List UInt8 :=
  (Blocks.absorb md5Process 64 initial (message ++ padding message.length)).bytes

example : md5 [97, 98, 99] = [0x90, 0x01, 0x50, 0x98, 0x3c, 0xd2, 0x4f, 0xb0,
    0xd6, 0x96, 0x3f, 0x7d, 0x28, 0xe1, 0x7f, 0x72] := by
  decide +kernel

end Digest

end Cs111Labs
