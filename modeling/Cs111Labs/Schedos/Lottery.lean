import Cs111Labs.Schedos.Shares

/-!
# The lottery scheduler

Algorithm 4 of `schedule()` draws a number, takes its remainder by
`NPROCS - 1`, and inspects the slot after it in the process table.  The
generator works on unsigned numbers, but it returns an `int`.
-/

namespace Cs111Labs.Schedos

/-- The static variables of `getRandNum`. -/
structure Generator where
  x : BitVec 32
  y : BitVec 32
  z : BitVec 32
  deriving DecidableEq, Repr

def initial : Generator := ⟨123456, 362092, 895104⟩

/-- The three shifts at the start of `getRandNum`. -/
def scramble (x : BitVec 32) : BitVec 32 :=
  let x := x ^^^ x <<< 16
  let x := x ^^^ x >>> 5
  x ^^^ x <<< 1

def getRandNum (g : Generator) : Int × Generator :=
  let t := scramble g.x
  let x := g.y
  let y := g.z
  let z := t ^^^ x ^^^ y
  (z.toInt, ⟨x, y, z⟩)

/-- A process with the field that the lottery looks at. -/
structure Contender where
  state : ProcState
  ticket : Int

/-- The slot `proc + 1` that one round inspects, with the sign of C's remainder. -/
def drawnSlot (g : Generator) : Int := (getRandNum g).1.tmod (nprocs - 1) + 1

/--
The loop of algorithm 4, up to the round that runs a process.  What is found
outside of the process table is whatever memory holds there.
-/
def lottery (memory : Int → Contender) : Nat → Generator → Option (Int × Generator)
  | 0, _ => none
  | rounds + 1, g =>
      let slot := drawnSlot g
      if (memory slot).state = .runnable ∧ slot = (memory slot).ticket then
        some (slot, (getRandNum g).2)
      else lottery memory rounds (getRandNum g).2

/-- The generator after a number of draws. -/
def generatorAfter : Nat → Generator
  | 0 => initial
  | draws + 1 => (getRandNum (generatorAfter draws)).2

/-- The slot is one of the processes'. -/
def InTable (slot : Int) : Prop := 1 ≤ slot ∧ slot ≤ nprocs - 1

instance : DecidablePred InTable := fun _ => inferInstanceAs (Decidable (_ ∧ _))

/-! ## The bits of the next number -/

namespace Generator

/-- The sign of the next number. -/
def sign (g : Generator) : Bool :=
  g.x.getLsbD 31 ^^ g.x.getLsbD 30 ^^ g.x.getLsbD 15 ^^ g.x.getLsbD 14 ^^
    g.y.getLsbD 31 ^^ g.z.getLsbD 31

/-- The next number is odd. -/
def odd (g : Generator) : Bool :=
  g.x.getLsbD 0 ^^ g.x.getLsbD 5 ^^ g.y.getLsbD 0 ^^ g.z.getLsbD 0

/-- The bit of the next number that counts 2. -/
def two (g : Generator) : Bool :=
  g.x.getLsbD 0 ^^ g.x.getLsbD 1 ^^ g.x.getLsbD 5 ^^ g.x.getLsbD 6 ^^
    g.y.getLsbD 1 ^^ g.z.getLsbD 1

variable (g : Generator)

theorem getLsbD_sign : (getRandNum g).2.z.getLsbD 31 = g.sign := by
  simp only [getRandNum, scramble, sign, BitVec.getLsbD_xor, BitVec.getLsbD_shiftLeft,
    BitVec.getLsbD_ushiftRight]
  simp [Bool.xor_comm, Bool.xor_left_comm]

theorem getLsbD_odd : (getRandNum g).2.z.getLsbD 0 = g.odd := by
  simp only [getRandNum, scramble, odd, BitVec.getLsbD_xor, BitVec.getLsbD_shiftLeft,
    BitVec.getLsbD_ushiftRight]
  simp

theorem getLsbD_two : (getRandNum g).2.z.getLsbD 1 = g.two := by
  simp only [getRandNum, scramble, two, BitVec.getLsbD_xor, BitVec.getLsbD_shiftLeft,
    BitVec.getLsbD_ushiftRight]
  simp [Bool.xor_comm, Bool.xor_left_comm]

theorem getRandNum_fst : (getRandNum g).1 = (getRandNum g).2.z.toInt := rfl

end Generator

/-! ## The remainder -/

theorem toInt_neg_iff (z : BitVec 32) : z.toInt < 0 ↔ z.getLsbD 31 = true := by
  have hmsb : z.msb = decide (z.toInt < 0) := BitVec.msb_eq_toInt
  rw [BitVec.msb_eq_getLsbD_last] at hmsb
  rw [hmsb, decide_eq_true_eq]

theorem four_dvd_toInt_iff (z : BitVec 32) :
    4 ∣ z.toInt ↔ z.getLsbD 0 = false ∧ z.getLsbD 1 = false := by
  have hmod : 4 ∣ z.toInt ↔ z.toNat % 4 = 0 := by
    rw [BitVec.toInt_eq_toNat_cond]
    split_ifs <;> omega
  have hbits : z.toNat.testBit 0 = false ∧ z.toNat.testBit 1 = false ↔ z.toNat % 4 = 0 := by
    simp only [Nat.testBit_zero, Nat.testBit_succ, decide_eq_false_iff_not]
    omega
  rw [hmod, ← hbits]
  rfl

/-- Only a negative number has a remainder below the table. -/
theorem inTable_iff_number (g : Generator) :
    InTable (drawnSlot g) ↔ 0 ≤ (getRandNum g).1 ∨ 4 ∣ (getRandNum g).1 := by
  have hslot : drawnSlot g = (getRandNum g).1.tmod 4 + 1 := rfl
  have hlast : (nprocs : Int) - 1 = 4 := rfl
  have hrest := Int.tmod_eq_emod (a := (getRandNum g).1) (b := 4)
  unfold InTable
  rw [hslot, hlast]
  split_ifs at hrest <;> omega

/-- The process that the lottery runs is in a slot that is drawn after some number of draws. -/
theorem lottery_slot (memory : Int → Contender) {rounds draws : Nat} {slot : Int} {g : Generator}
    (h : lottery memory rounds (generatorAfter draws) = some (slot, g)) :
    ∃ last, draws ≤ last ∧ slot = drawnSlot (generatorAfter last) ∧
      g = generatorAfter (last + 1) := by
  induction rounds generalizing draws with
  | zero => cases h
  | succ rounds ih =>
      rw [lottery] at h
      split_ifs at h with hwins
      · cases h
        exact ⟨draws, le_rfl, rfl, rfl⟩
      · obtain ⟨last, hle, hlast⟩ := @ih (draws + 1) h
        exact ⟨last, by omega, hlast⟩

/--
The slot is in the process table if and only if the next number is not negative
or is a multiple of `NPROCS - 1`.
-/
theorem drawnSlot_inTable_iff (draws : Nat) :
    InTable (drawnSlot (generatorAfter draws)) ↔
      (generatorAfter draws).sign = false ∨
        (generatorAfter draws).odd = false ∧ (generatorAfter draws).two = false := by
  generalize generatorAfter draws = g
  rw [inTable_iff_number, Generator.getRandNum_fst, ← not_lt, toInt_neg_iff, four_dvd_toInt_iff,
    g.getLsbD_sign, g.getLsbD_odd, g.getLsbD_two, Bool.not_eq_true]

/-- The second number is negative, and slot 0 is inspected. -/
theorem secondDraw_not_inTable : ¬ ∀ draws, InTable (drawnSlot (generatorAfter draws)) :=
  fun h => absurd (h 1) (by decide)

end Cs111Labs.Schedos
