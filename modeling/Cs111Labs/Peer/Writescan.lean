import Cs111Labs.Peer.Tracker
import Mathlib.Data.Nat.Digits.Defs

/-!
# Writing and scanning messages

`osp2p_writef` builds a message from a format, `osp2p_vsnscanf` takes one apart.
Scanned bytes stand in memory with others behind them: `end_s` is compared with
the position and does not stop a read that is past it.
-/

namespace Cs111Labs.Peer

/-- The bytes of an ASCII string. -/
def ascii (s : String) : List UInt8 := s.toList.map fun c => c.toNat.toUInt8

@[match_pattern] abbrev percent : UInt8 := 37
@[match_pattern] abbrev letterI : UInt8 := 73
@[match_pattern] abbrev letterD : UInt8 := 100
@[match_pattern] abbrev letterN : UInt8 := 110
@[match_pattern] abbrev letterS : UInt8 := 115

def dot : UInt8 := 46

def isalnum (c : UInt8) : Bool :=
  isdigit c || (65 ≤ c && c ≤ 90) || (97 ≤ c && c ≤ 122)

def isxdigit (c : UInt8) : Bool :=
  isdigit c || (65 ≤ c && c ≤ 70) || (97 ≤ c && c ≤ 102)

def tolower (c : UInt8) : UInt8 := if 65 ≤ c && c ≤ 90 then c + 32 else c

/-- An argument of a conversion.  An address is its dotted quad as one number. -/
inductive Value where
  | string (s : List UInt8)
  | integer (i : Int)
  | address (a : BitVec 32)
  deriving DecidableEq, Repr

/-! ## Writing -/

/-- Bytes that are not quoted: letters, digits and `$-_.+!*'(),`. -/
def isPlain (c : UInt8) : Bool := isalnum c || c ∈ ascii "$-_.+!*'(),"

/-- The digit from the table in `http_quote`. -/
def hexDigit (n : UInt8) : UInt8 := (ascii "0123456789ABCDEF").getD n.toNat 0

/-- A string ends at its first NUL. -/
def httpQuote : List UInt8 → List UInt8
  | [] => []
  | c :: s =>
      if c = 0 then []
      else if isPlain c then c :: httpQuote s
      else percent :: hexDigit (c / 16) :: hexDigit (c &&& 15) :: httpQuote s

/-- The decimal digits of a number, the last one first. -/
def digits (n : Nat) : List Nat := if n = 0 then [0] else Nat.digits 10 n

def decimal (n : Nat) : List UInt8 :=
  (digits n).reverse.map fun d => 48 + d.toUInt8

/-- `sprintf` with `%d` -/
def printInt : Int → List UInt8
  | .ofNat n => decimal n
  | .negSucc n => 45 :: decimal (n + 1)

def octet (a : BitVec 32) (i : Nat) : Nat := (a >>> (8 * (3 - i))).toNat % 256

def inetNtoa (a : BitVec 32) : List UInt8 :=
  decimal (octet a 0) ++ dot :: (decimal (octet a 1) ++ dot ::
    (decimal (octet a 2) ++ dot :: decimal (octet a 3)))

/-- The command string of `osp2p_writef`; `none` if the arguments do not fit. -/
def command : List UInt8 → List Value → Option (List UInt8)
  | [], _ => some []
  | percent :: letterS :: format, .string s :: values =>
      (command format values).map (httpQuote s ++ ·)
  | percent :: letterD :: format, .integer i :: values =>
      (command format values).map (printInt i ++ ·)
  | percent :: letterI :: format, .address a :: values =>
      (command format values).map (inetNtoa a ++ ·)
  | percent :: letterS :: _, _ | percent :: letterD :: _, _ | percent :: letterI :: _, _ =>
      none
  | percent :: percent :: format, values =>
      (command format values).map (percent :: ·)
  | c :: format, values => (command format values).map (c :: ·)

/-- The loop that calls `write`: its return value and the bytes that were written,
or `none` while it waits. -/
def writeAll : List (Answer Nat) → List UInt8 → Option (Int × List UInt8)
  | _, [] => some (0, [])
  | [], _ => none
  | .again :: answers, buf => writeAll answers buf
  | .failed :: _, _ => some (-1, [])
  | .moved amt :: answers, buf =>
      let amt := min amt buf.length
      if amt = 0 then some (-1, [])
      else (writeAll answers (buf.drop amt)).map fun (ret, out) =>
        (ret, buf.take amt ++ out)

def osp2pWritef (answers : List (Answer Nat)) (format : List UInt8)
    (values : List Value) : Option (Int × List UInt8) :=
  (command format values).bind (writeAll answers)

/-! ## Scanning -/

def xvalue (c : UInt8) : UInt8 := if isdigit c then c - 48 else tolower c - 97 + 10

/-- The memory from `s` on, and `end_s - s`. -/
structure Cursor where
  rest : List UInt8
  left : Int
  deriving DecidableEq, Repr

/-- A part of the scan: it goes on, it fails, or it reads outside of memory. -/
inductive Scanned (α : Type) where
  | found (a : α) (c : Cursor)
  | mismatch
  | outside
  deriving DecidableEq, Repr

/-- `*str++ = b` before the rest of a `%s`. -/
def Scanned.store (b : UInt8) : Scanned (List UInt8) → Scanned (List UInt8)
  | .found s c => .found (b :: s) c
  | .mismatch => .mismatch
  | .outside => .outside

/-- `%s`; a quoted byte is read whole, also if `end_s` is inside it. -/
def scanString : List UInt8 → Int → Scanned (List UInt8)
  | [], left => if left = 0 then .found [] ⟨[], 0⟩ else .outside
  | c :: rest, left =>
      if left = 0 ∨ isspace c = true then .found [] ⟨c :: rest, left⟩
      else if c = percent then
        match rest with
        | [] => .outside
        | h :: rest' =>
            if isxdigit h then
              match rest' with
              | [] => .outside
              | l :: rest'' =>
                  if isxdigit l then
                    (scanString rest'' (left - 3)).store (xvalue h * 16 + xvalue l)
                  else (scanString (h :: l :: rest'') (left - 1)).store c
            else (scanString (h :: rest') (left - 1)).store c
      else (scanString rest (left - 1)).store c

/-- The inner loop of `%I`: `x` is -1 before the first digit. -/
def scanOctet : List UInt8 → Int → Int → Scanned Int
  | [], left, x => if left = 0 then .found x ⟨[], 0⟩ else .outside
  | c :: rest, left, x =>
      if left ≠ 0 ∧ isdigit c = true ∧ x ≤ 255 then
        scanOctet rest (left - 1) ((if x < 0 then 0 else 10 * x) + (c.toNat - 48))
      else .found x ⟨c :: rest, left⟩

/-- The rest of `%I`, with the number of octets that are missing. -/
def scanAddress : Nat → BitVec 32 → Cursor → Scanned (BitVec 32)
  | 0, value, c => .found value c
  | n + 1, value, c =>
      match scanOctet c.rest c.left (-1) with
      | .outside => .outside
      | .mismatch => .mismatch
      | .found x c =>
          if x < 0 ∨ 255 < x then .mismatch
          else
            let value := (value <<< 8) + BitVec.ofInt 32 x
            if n = 0 then .found value c
            else if c.left = 0 then .mismatch
            else
              match c.rest with
              | [] => .outside
              | b :: rest =>
                  if b = dot then scanAddress n value ⟨rest, c.left - 1⟩
                  else .mismatch

def intMax : Int := 2147483647

/-- The loop of `%d`. -/
def scanDigits : List UInt8 → Int → Int → Scanned Int
  | [], left, value => if left = 0 then .found value ⟨[], 0⟩ else .outside
  | c :: rest, left, value =>
      if left ≠ 0 ∧ isdigit c = true ∧ value < (intMax - (c.toNat - 48)).tdiv 10 then
        scanDigits rest (left - 1) (10 * value + (c.toNat - 48))
      else .found value ⟨c :: rest, left⟩

/-- A test of the next byte, as in `s == end_s || !test(*s)`. -/
def nextIs (test : UInt8 → Bool) (c : Cursor) : Scanned Bool :=
  if c.left = 0 then .found false c
  else
    match c.rest with
    | [] => .outside
    | b :: _ => .found (test b) c

/-- `%d`: at least one digit, and none left behind the number. -/
def scanInt (c : Cursor) : Scanned Int :=
  match nextIs isdigit c with
  | .outside => .outside
  | .mismatch | .found false _ => .mismatch
  | .found true _ =>
      match scanDigits c.rest c.left 0 with
      | .outside => .outside
      | .mismatch => .mismatch
      | .found value c =>
          match nextIs isdigit c with
          | .outside => .outside
          | .mismatch | .found true _ => .mismatch
          | .found false _ => .found value c

/-- One byte that passes the test. -/
def scanByte (test : UInt8 → Bool) (c : Cursor) : Scanned Unit :=
  match nextIs test c with
  | .outside => .outside
  | .mismatch | .found false _ => .mismatch
  | .found true _ => .found () ⟨c.rest.tail, c.left - 1⟩

/-- `while (s != end_s && isspace(*s)) ++s` -/
def skipSpace : List UInt8 → Int → Scanned Unit
  | [], left => if left = 0 then .found () ⟨[], 0⟩ else .outside
  | c :: rest, left =>
      if left ≠ 0 ∧ isspace c = true then skipSpace rest (left - 1)
      else .found () ⟨c :: rest, left⟩

def scanSpace (c : Cursor) : Scanned Unit :=
  match scanByte isspace c with
  | .outside => .outside
  | .mismatch => .mismatch
  | .found _ c => skipSpace c.rest c.left

/-- The return value of `osp2p_vsnscanf` and what it stored, or `none` if it read
outside of memory.  `len` is for `%n`. -/
def vsnscanfFrom (len : Nat) (format : List UInt8) (c : Cursor) (values : List Value) :
    Option (Int × List Value) :=
  match format with
  | [] => some (0, values)
  | percent :: letterS :: format =>
      match scanString c.rest c.left with
      | .found s c => vsnscanfFrom len format c (values ++ [.string s])
      | .mismatch => some (-1, values)
      | .outside => none
  | percent :: letterI :: format =>
      match scanAddress 4 0 c with
      | .found a c => vsnscanfFrom len format c (values ++ [.address a])
      | .mismatch => some (-1, values)
      | .outside => none
  | percent :: letterD :: format =>
      match scanInt c with
      | .found i c => vsnscanfFrom len format c (values ++ [.integer i])
      | .mismatch => some (-1, values)
      | .outside => none
  | percent :: letterN :: format =>
      vsnscanfFrom len format c (values ++ [.integer (len - c.left)])
  | percent :: percent :: format =>
      match scanByte (· = percent) c with
      | .found _ c => vsnscanfFrom len format c values
      | .mismatch => some (-1, values)
      | .outside => none
  | b :: format =>
      if isspace b then
        match scanSpace c with
        | .found _ c => vsnscanfFrom len (format.dropWhile isspace) c values
        | .mismatch => some (-1, values)
        | .outside => none
      else
        match scanByte (· = b) c with
        | .found _ c => vsnscanfFrom len format c values
        | .mismatch => some (-1, values)
        | .outside => none
termination_by format.length
decreasing_by
  all_goals simp only [List.length_cons]
  all_goals first | omega | exact Nat.lt_succ_of_le (List.dropWhile_sublist _).length_le

/-- `osp2p_vsnscanf` on `len` bytes of memory. -/
def vsnscanf (memory : List UInt8) (len : Nat) (format : List UInt8) :
    Option (Int × List Value) :=
  vsnscanfFrom len format ⟨memory, len⟩ []

end Cs111Labs.Peer
