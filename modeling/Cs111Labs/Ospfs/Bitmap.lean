import Cs111Labs.Ospfs.Places

/-!
# The free-block bitmap

On these disks the bitmap is one block.
-/

namespace Cs111Labs.Ospfs

open Foundation Memory

variable {g : Geometry} {m m' : Memory} {own : Nat → Prop} {b c i : Nat}

theorem bitvectorTest_set (m : Memory) (vector i c : Nat) :
    bitvectorTest (bitvectorSet m vector i) vector c =
      (bitvectorTest m vector c || decide (c = i)) := by
  have hmod := Nat.mod_lt i (by decide : 0 < 32)
  unfold bitvectorTest bitvectorSet
  by_cases hword : c / 32 = i / 32
  · have hbit : c % 32 = i % 32 ↔ c = i := by omega
    rw [hword, load32_store32_same,
      Nat.mod_eq_of_lt (or_shift_lt (load32_lt m _) hmod), testBit_or_shift]
    simp only [hbit]
  · rw [load32_store32_of_disjoint (by omega)]
    have hne : c ≠ i := by omega
    simp [hne]

theorem bitvectorTest_clear (m : Memory) (vector i c : Nat) :
    bitvectorTest (bitvectorClear m vector i) vector c =
      (bitvectorTest m vector c && decide (c ≠ i)) := by
  unfold bitvectorTest bitvectorClear
  by_cases hword : c / 32 = i / 32
  · have hbit : c % 32 = i % 32 ↔ c = i := by omega
    rw [hword, load32_store32_same, Nat.mod_eq_of_lt
      (Nat.and_le_left.trans_lt (load32_lt m _)), testBit_and_not_shift (load32_lt m _)]
    simp only [ne_eq, hbit]
  · rw [load32_store32_of_disjoint (by omega)]
    have hne : c ≠ i := by omega
    simp [hne]

theorem bitvectorSet_changesOnly (hi : i < 8192) :
    ChangesOnly (blockBytes 2) m (bitvectorSet m freemap i) := by
  refine (store32_changesOnly m _ _).mono fun a ha => ?_
  simp only [freemap_eq, blockBytes, Set.mem_Ico] at *
  omega

theorem bitvectorClear_changesOnly (hi : i < 8192) :
    ChangesOnly (blockBytes 2) m (bitvectorClear m freemap i) := by
  refine (store32_changesOnly m _ _).mono fun a ha => ?_
  simp only [freemap_eq, blockBytes, Set.mem_Ico] at *
  omega

theorem not_mem_bitmap_of_inode {a : Nat} (ha : a ∈ blockBytes 2) : a ∉ inodeBytes i := by
  simp only [blockBytes, inodeBytes, inodeAt, Set.mem_Ico] at *
  omega

theorem bitvectorTest_changesOnly {S : Set Nat} (hchanges : ChangesOnly S m m')
    (hout : ∀ a ∈ S, a ∉ blockBytes 2) (hc : c < 8192) :
    bitvectorTest m' freemap c = bitvectorTest m freemap c := by
  unfold bitvectorTest
  rw [hchanges.load32 fun d hd hmem => hout _ hmem (by
    simp only [freemap_eq, blockBytes, Set.mem_Ico]
    omega)]

/-- The bits determine the bytes. -/
theorem bitmap_eq (h : ∀ c < 8192, bitvectorTest m' freemap c = bitvectorTest m freemap c)
    {a : Nat} (ha : a ∈ blockBytes 2) : m' a = m a := by
  obtain ⟨hlo, hhi⟩ := Set.mem_Ico.1 ha
  have hword : load32 m' (freemap + 4 * ((a - 2048) / 4)) =
      load32 m (freemap + 4 * ((a - 2048) / 4)) := by
    refine Nat.eq_of_testBit_eq fun j => ?_
    by_cases hj : j < 32
    · have hbit := h (32 * ((a - 2048) / 4) + j) (by omega)
      unfold bitvectorTest at hbit
      rwa [show (32 * ((a - 2048) / 4) + j) / 32 = (a - 2048) / 4 by omega,
        show (32 * ((a - 2048) / 4) + j) % 32 = j by omega] at hbit
    · have hlarge : 2 ^ 32 ≤ 2 ^ j := Nat.pow_le_pow_right (by decide) (by omega)
      rw [Nat.testBit_lt_two_pow ((load32_lt m' _).trans_le hlarge),
        Nat.testBit_lt_two_pow ((load32_lt m _).trans_le hlarge)]
  have hbyte := eq_of_load32_eq hword (k := (a - 2048) % 4) (by omega)
  rwa [freemap_eq, show 2048 + 4 * ((a - 2048) / 4) + (a - 2048) % 4 = a by omega] at hbyte

/-! ## Allocation -/

/-- A free block is allocated, unless the disk is full. -/
theorem allocateBlock_cases (own : Nat → Prop) (hfits : g.Fits m) :
    (allocateBlock m = (0, m) ∧ ∀ b, ¬ (ledger g m own).Free b) ∨
      ∃ b, (ledger g m own).Free b ∧
        allocateBlock m = (b, bitvectorClear m freemap b) := by
  unfold allocateBlock
  rw [hfits.nblocks]
  cases hfind : (List.range g.nblocks).find? (bitvectorTest m freemap) with
  | none =>
      refine .inl ⟨rfl, fun b hfree => ?_⟩
      have hclear := List.find?_eq_none.1 hfind b (List.mem_range.2 hfree.1)
      exact hclear hfree.2
  | some b =>
      have hmem := List.mem_range.1 (List.mem_of_find?_eq_some hfind)
      exact .inr ⟨b, ⟨hmem, List.find?_some hfind⟩, rfl⟩

theorem freeBlock_of_isData (hfits : g.Fits m) (hb : g.IsData b) :
    freeBlock m b = bitvectorSet m freemap b := by
  have hfirst := hb.1
  have hlast := hb.2
  unfold Geometry.firstData at hfirst
  unfold freeBlock
  rw [hfits.firstinob, hfits.ninodes, hfits.nblocks]
  exact if_pos ⟨hlast, by omega⟩

/-! ## Free blocks -/

/-- The blocks that `allocate_block` can return. -/
def freeBlocks (g : Geometry) (m : Memory) : Finset Nat :=
  (Finset.range g.nblocks).filter fun b => bitvectorTest m freemap b = true

theorem mem_freeBlocks (own : Nat → Prop) :
    b ∈ freeBlocks g m ↔ (ledger g m own).Free b := by
  rw [freeBlocks, Finset.mem_filter, Finset.mem_range]
  exact Iff.rfl

theorem allocateBlock_of_full (hfits : g.Fits m) (hfull : (freeBlocks g m).card = 0) :
    allocateBlock m = (0, m) := by
  rcases allocateBlock_cases (fun _ => False) hfits with ⟨halloc, -⟩ | ⟨b, hfree, -⟩
  · exact halloc
  · have hmem := (mem_freeBlocks _).2 hfree
    rw [Finset.card_eq_zero.1 hfull] at hmem
    cases hmem

theorem allocateBlock_of_room (own : Nat → Prop) (hfits : g.Fits m)
    (hroom : 0 < (freeBlocks g m).card) :
    ∃ b, (ledger g m own).Free b ∧ allocateBlock m = (b, bitvectorClear m freemap b) := by
  rcases allocateBlock_cases own hfits with ⟨-, hnone⟩ | halloc
  · obtain ⟨b, hb⟩ := Finset.card_pos.1 hroom
    exact absurd ((mem_freeBlocks own).1 hb) (hnone b)
  · exact halloc

end Cs111Labs.Ospfs
