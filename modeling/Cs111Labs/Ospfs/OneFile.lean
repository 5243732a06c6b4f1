import Cs111Labs.Ospfs.Reshaping

/-!
# Disks with one file

For each number of blocks there is a disk with a file of that size, up to ten
indirect blocks below the doubly indirect block, and with any number of free
blocks.
-/

namespace Cs111Labs.Ospfs

open Foundation Memory

variable {n used c i : Nat} {s : Slot}

def oneFileGeometry : Geometry := ⟨8192, 16, by decide, by decide⟩

/-- The bits from `k` on. -/
def bitsFrom (k : Nat) : Nat := (2 ^ (32 - min k 32) - 1) <<< min k 32

def pointerWord (n w : Nat) : Nat :=
  if w < 800 then 0
  else if w = 800 then 1024 * n
  else if w = 802 then 1
  else if w < 804 then 0
  else if w < 814 then if w - 804 < n then w - 788 else 0
  else if w = 814 then if 10 < n then 4 else 0
  else if w = 815 then if 266 < n then 5 else 0
  else if w < 1024 then 0
  else if w < 1280 then if 10 + (w - 1024) < n then 26 + (w - 1024) else 0
  else if w < 1290 then if 266 + 256 * (w - 1280) < n then 6 + (w - 1280) else 0
  else if w < 1536 then 0
  else if w < 4096 then if 266 + (w - 1536) < n then 282 + (w - 1536) else 0
  else 0

/-- Inode 2 has `n` blocks, and the blocks from `used` on are free. -/
def oneFile (n used : Nat) : Memory := ofWords fun w =>
  if w = 256 then 0x013101AE
  else if w = 257 then 8192
  else if w = 258 then 16
  else if w = 259 then 3
  else if 512 ≤ w ∧ w < 768 then bitsFrom (used - 32 * (w - 512))
  else pointerWord n w

/-- Where the file has its blocks. -/
def Slot.place : Slot → Nat
  | direct k => 16 + k
  | indirect => 4
  | single k => 26 + k
  | indirect2 => 5
  | outer l => 6 + l
  | double l k => 282 + 256 * l + k

theorem load32_oneFile (n used : Nat) {w : Nat} (hw : 768 ≤ w) :
    load32 (oneFile n used) (4 * w) = pointerWord n w % 2 ^ 32 := by
  rw [oneFile, load32_ofWords, if_neg (by omega), if_neg (by omega), if_neg (by omega),
    if_neg (by omega), if_neg (by omega)]

theorem oneFile_fits (n used : Nat) : oneFileGeometry.Fits (oneFile n used) :=
  ⟨load32_ofWords _ 257, load32_ofWords _ 258, load32_ofWords _ 259⟩

theorem bitvectorTest_oneFile (hc : c < 8192) :
    bitvectorTest (oneFile n used) freemap c = decide (used ≤ c) := by
  have hword : load32 (oneFile n used) (freemap + 4 * (c / 32)) =
      bitsFrom (used - 32 * (c / 32)) % 2 ^ 32 := by
    rw [freemap_eq, show 2048 + 4 * (c / 32) = 4 * (512 + c / 32) by omega, oneFile,
      load32_ofWords, if_neg (by omega), if_neg (by omega), if_neg (by omega),
      if_neg (by omega), if_pos (by omega), Nat.add_sub_cancel_left]
  rw [bitvectorTest, hword, Nat.testBit_mod_two_pow, bitsFrom, Nat.testBit_shiftLeft,
    Nat.testBit_two_pow_sub_one]
  have hmod := Nat.mod_lt c (by decide : 0 < 32)
  rw [Bool.eq_iff_iff]
  simp only [Bool.and_eq_true, decide_eq_true_eq, ge_iff_le]
  omega

theorem blockCount_oneFile (hn : n ≤ 2826) : blockCount (oneFile n used) 2 = n := by
  have hsize : oiSize (oneFile n used) (inodeAt 2) = 1024 * n % 2 ^ 32 :=
    load32_oneFile n used (w := 800) (by decide)
  rw [blockCount_of_size hsize]
  unfold ospfsSize2nblocks
  omega

theorem blockCount_oneFile_of_ne (hi : i < 16) (hne : i ≠ 2) :
    blockCount (oneFile n used) i = 0 := by
  have hzero : pointerWord n (768 + 16 * i) = 0 := by
    rcases Nat.lt_or_gt_of_ne hne with hlt | hgt
    · exact if_pos (by omega)
    · unfold pointerWord
      rw [if_neg (by omega), if_neg (by omega), if_neg (by omega), if_neg (by omega),
        if_neg (by omega), if_neg (by omega), if_neg (by omega), if_pos (by omega)]
  have hsize : oiSize (oneFile n used) (inodeAt i) = 0 := by
    rw [oiSize, inodeAt, show 3072 + 64 * i = 4 * (768 + 16 * i) by omega,
      load32_oneFile n used (by omega), hzero, Nat.zero_mod]
  rw [blockCount_of_size hsize]
  rfl

theorem pointerWord_direct {k : Nat} (hk : k < 10) :
    pointerWord n (804 + k) = if k < n then 16 + k else 0 := by
  unfold pointerWord
  rw [if_neg (by omega), if_neg (by omega), if_neg (by omega), if_neg (by omega),
    if_pos (by omega), Nat.add_sub_cancel_left, show 804 + k - 788 = 16 + k by omega]

theorem pointerWord_single {k : Nat} (hk : k < 256) :
    pointerWord n (1024 + k) = if 10 + k < n then 26 + k else 0 := by
  unfold pointerWord
  rw [if_neg (by omega), if_neg (by omega), if_neg (by omega), if_neg (by omega),
    if_neg (by omega), if_neg (by omega), if_neg (by omega), if_neg (by omega),
    if_pos (by omega), Nat.add_sub_cancel_left]

theorem pointerWord_outer {l : Nat} (hl : l < 256) (hn : n ≤ 2826) :
    pointerWord n (1280 + l) = if 266 + 256 * l < n then 6 + l else 0 := by
  unfold pointerWord
  rw [if_neg (by omega), if_neg (by omega), if_neg (by omega), if_neg (by omega),
    if_neg (by omega), if_neg (by omega), if_neg (by omega), if_neg (by omega),
    if_neg (by omega)]
  by_cases hten : l < 10
  · rw [if_pos (by omega), Nat.add_sub_cancel_left]
  · rw [if_neg (by omega), if_pos (by omega), if_neg (by omega)]

theorem pointerWord_double {k : Nat} (hk : k < 2560) :
    pointerWord n (1536 + k) = if 266 + k < n then 282 + k else 0 := by
  unfold pointerWord
  rw [if_neg (by omega), if_neg (by omega), if_neg (by omega), if_neg (by omega),
    if_neg (by omega), if_neg (by omega), if_neg (by omega), if_neg (by omega),
    if_neg (by omega), if_neg (by omega), if_neg (by omega), if_pos (by omega),
    Nat.add_sub_cancel_left]

theorem target_indirect_oneFile (h : 10 < n) :
    Slot.indirect.target (oneFile n used) (inodeAt 2) = 4 := by
  refine (load32_oneFile n used (w := 814) (by decide)).trans ?_
  simp [pointerWord, h]

theorem target_indirect2_oneFile (h : 266 < n) :
    Slot.indirect2.target (oneFile n used) (inodeAt 2) = 5 := by
  refine (load32_oneFile n used (w := 815) (by decide)).trans ?_
  simp [pointerWord, h]

theorem target_outer_oneFile {l : Nat} (hl : l < 256) (hn : n ≤ 2826) (h : 266 < n) :
    (Slot.outer l).target (oneFile n used) (inodeAt 2) =
      if 266 + 256 * l < n then 6 + l else 0 := by
  have hcell : ospfsBlock (Slot.indirect2.target (oneFile n used) (inodeAt 2)) + 4 * l =
      4 * (1280 + l) := by
    rw [target_indirect2_oneFile h, ospfsBlock]
    omega
  refine (congrArg (load32 _) hcell).trans ?_
  rw [load32_oneFile n used (by omega), pointerWord_outer hl hn]
  split_ifs <;> omega

/-- A pointer of the file is at its place, or 0 if no block needs it. -/
theorem target_oneFile (hn : n ≤ 2826) (hs : s.Valid)
    (hparent : ∀ p, s.parent = some p → p.InUse n) :
    (s.InUse n → s.target (oneFile n used) (inodeAt 2) = s.place) ∧
      (¬ s.InUse n → s.target (oneFile n used) (inodeAt 2) = 0) := by
  cases s with
  | direct k =>
      have hk : k < 10 := hs
      have htarget : (Slot.direct k).target (oneFile n used) (inodeAt 2) =
          if k < n then 16 + k else 0 := by
        have hcell : inodeAt 2 + 16 + 4 * k = 4 * (804 + k) := by
          unfold inodeAt
          omega
        refine (congrArg (load32 _) hcell).trans ?_
        rw [load32_oneFile n used (by omega), pointerWord_direct hk]
        split_ifs <;> omega
      rw [htarget]
      exact ⟨fun huse => if_pos huse.2, fun hnot => if_neg fun hlt => hnot ⟨hk, hlt⟩⟩
  | indirect =>
      refine ⟨fun huse => target_indirect_oneFile huse, fun hnot => ?_⟩
      have hle : ¬ 10 < n := hnot
      refine (load32_oneFile n used (w := 814) (by decide)).trans ?_
      simp [pointerWord, hle]
  | indirect2 =>
      refine ⟨fun huse => target_indirect2_oneFile huse, fun hnot => ?_⟩
      have hle : ¬ 266 < n := hnot
      refine (load32_oneFile n used (w := 815) (by decide)).trans ?_
      simp [pointerWord, hle]
  | single k =>
      have hk : k < 256 := hs
      have htarget : (Slot.single k).target (oneFile n used) (inodeAt 2) =
          if 10 + k < n then 26 + k else 0 := by
        have hcell : ospfsBlock (Slot.indirect.target (oneFile n used) (inodeAt 2)) + 4 * k =
            4 * (1024 + k) := by
          rw [target_indirect_oneFile (hparent _ rfl), ospfsBlock]
          omega
        refine (congrArg (load32 _) hcell).trans ?_
        rw [load32_oneFile n used (by omega), pointerWord_single hk]
        split_ifs <;> omega
      rw [htarget]
      exact ⟨fun huse => if_pos huse.2, fun hnot => if_neg fun hlt => hnot ⟨hk, hlt⟩⟩
  | outer l =>
      have hl : l < 256 := hs
      rw [target_outer_oneFile hl hn (hparent _ rfl)]
      exact ⟨fun huse => if_pos huse.2, fun hnot => if_neg fun hlt => hnot ⟨hl, hlt⟩⟩
  | double l k =>
      obtain ⟨hl, hk⟩ := hs
      have houter : 266 + 256 * l < n := (hparent _ rfl).2
      have htarget : (Slot.double l k).target (oneFile n used) (inodeAt 2) =
          if 266 + (256 * l + k) < n then 282 + (256 * l + k) else 0 := by
        have hcell : ospfsBlock ((Slot.outer l).target (oneFile n used) (inodeAt 2)) + 4 * k =
            4 * (1536 + (256 * l + k)) := by
          rw [target_outer_oneFile hl hn (by omega), if_pos houter, ospfsBlock]
          omega
        refine (congrArg (load32 _) hcell).trans ?_
        rw [load32_oneFile n used (by omega), pointerWord_double (by omega)]
        split_ifs <;> omega
      rw [htarget, ← Nat.add_assoc, ← Nat.add_assoc]
      exact ⟨fun huse => if_pos huse.2.2, fun hnot => if_neg fun hlt => hnot ⟨hl, hk, hlt⟩⟩

theorem Slot.place_injective {t : Slot} (hn : n ≤ 2826) (hs : s.InUse n) (ht : t.InUse n)
    (h : s.place = t.place) : s = t := by
  cases s <;> cases t <;> simp only [Slot.place, Slot.InUse] at * <;>
    simp only [direct.injEq, single.injEq, outer.injEq, double.injEq, reduceCtorEq] <;> omega

theorem Slot.place_lt (hn : n ≤ 2826) (hs : s.InUse n) : 4 ≤ s.place ∧ s.place < 16 + n := by
  cases s <;> simp only [Slot.place, Slot.InUse] at * <;> omega

theorem owns_oneFile (hn : n ≤ 2826) {j b : Nat} (h : Owns (oneFile n used) (· = 2) (j, s) b) :
    j = 2 ∧ s.InUse n ∧ b = s.place := by
  obtain ⟨rfl, huse, htarget, -⟩ := h
  rw [blockCount_oneFile hn] at huse
  refine ⟨rfl, huse, htarget.symm.trans ?_⟩
  exact (target_oneFile hn huse.valid fun p hparent => huse.parent hparent).1 huse

theorem oneFile_safe (hn : n ≤ 2826) (hused : 16 + n ≤ used) :
    Safe oneFileGeometry (oneFile n used) (· = 2) where
  held_mem := by
    rintro ⟨j, s⟩ b h
    obtain ⟨-, huse, rfl⟩ := owns_oneFile hn h
    have hplace := Slot.place_lt hn huse
    refine ⟨hplace.1, ?_⟩
    change s.place < 8192
    omega
  free_mem b hb := by
    obtain ⟨hlt, hbit⟩ := hb
    rw [bitvectorTest_oneFile hlt, decide_eq_true_eq] at hbit
    exact ⟨(by omega : 4 ≤ b), hlt⟩
  held_not_free := by
    rintro ⟨j, s⟩ b h ⟨hlt, hbit⟩
    obtain ⟨-, huse, rfl⟩ := owns_oneFile hn h
    have hplace := Slot.place_lt hn huse
    rw [bitvectorTest_oneFile hlt, decide_eq_true_eq] at hbit
    omega
  once := by
    rintro ⟨j, s⟩ ⟨j', t⟩ b h h'
    obtain ⟨rfl, huse, heq⟩ := owns_oneFile hn h
    obtain ⟨rfl, huse', heq'⟩ := owns_oneFile hn h'
    rw [Slot.place_injective hn huse huse' (heq.symm.trans heq')]
  func := by
    rintro ⟨j, s⟩ b c h h'
    exact (owns_oneFile hn h).2.2.trans (owns_oneFile hn h').2.2.symm

theorem oneFile_boot {a : Nat} (ha : a < 1024) : oneFile n used a = 0 := by
  have hzero : pointerWord n (a / 4) = 0 := if_pos (by omega)
  rw [oneFile, ofWords, if_neg (by omega), if_neg (by omega), if_neg (by omega),
    if_neg (by omega), if_neg (by omega), hzero, Nat.zero_div]
  rfl

theorem oneFile_ftype (n used : Nat) : oiFtype (oneFile n used) (inodeAt 2) = ftypeReg :=
  (load32_oneFile n used (w := 801) (by decide)).trans (by simp [pointerWord])

theorem oneFile_filled (hn : n ≤ 2826) : Filled (oneFile n used) 2 := by
  intro s huse
  rw [blockCount_oneFile hn] at huse
  have hplace := (Slot.place_lt hn huse).1
  rw [(target_oneFile hn huse.valid fun p hparent => huse.parent hparent).1 huse]
  exact .inl (by omega)

theorem oneFile_storedFile (hn : n ≤ 2826) : StoredFile False (oneFile n used) 2 where
  ftype := by
    rw [oneFile_ftype]
    decide
  size_le := by
    have hsize : oiSize (oneFile n used) (inodeAt 2) = 1024 * n % 2 ^ 32 :=
      load32_oneFile n used (w := 800) (by decide)
    rw [hsize]
    unfold Slot.maxfileblks
    omega
  direct k hk hlt := (oneFile_filled hn (.direct k) ⟨hk, hlt⟩).resolve_right id
  indirect hle := by
    rw [blockCount_oneFile hn] at hle
    exact (target_oneFile (s := .indirect) hn trivial nofun).2 (not_lt.2 hle)
  filled _ := oneFile_filled hn
  pastZero := False.elim

theorem oneFile_wellFormed (hn : n ≤ 2826) (hused : 16 + n ≤ used) :
    WellFormed oneFileGeometry (oneFile n used) (· = 2) 2 where
  stored := by
    refine ⟨oneFile_fits n used, oneFile_safe hn hused, False.elim, fun a => oneFile_boot, ?_, ?_⟩
    · rintro j rfl
      decide
    · rintro j rfl
      exact oneFile_storedFile hn
  owner := rfl
  filled := oneFile_filled hn
  tidy s hs hparent hnot := by
    rw [blockCount_oneFile hn] at hparent hnot
    exact (target_oneFile hn hs hparent).2 hnot

theorem card_freeBlocks_oneFile (n used : Nat) :
    (freeBlocks oneFileGeometry (oneFile n used)).card = 8192 - used := by
  have hfree : freeBlocks oneFileGeometry (oneFile n used) = Finset.Ico used 8192 := by
    ext b
    simp only [freeBlocks, Finset.mem_filter, Finset.mem_range, Finset.mem_Ico]
    constructor
    · rintro ⟨hb, hbit⟩
      rw [bitvectorTest_oneFile hb, decide_eq_true_eq] at hbit
      exact ⟨hbit, hb⟩
    · rintro ⟨hle, hb⟩
      refine ⟨hb, ?_⟩
      rw [bitvectorTest_oneFile hb, decide_eq_true hle]
  rw [hfree, Nat.card_Ico]

end Cs111Labs.Ospfs
