import Cs111Labs.Ospfs.Bitmap
import Cs111Labs.Ospfs.Resize

/-!
# Resizing files without indirect blocks

Each `add_block` takes a free block and each `remove_block` gives one back, so
a growth that fails and is rolled back leaves the same blocks in use.
-/

namespace Cs111Labs.Ospfs

open Foundation Memory

variable {g : Geometry} {m m' m'' : Memory} {own : Nat → Prop} {b i n : Nat} {S : Set Nat}

/-- The size and the direct pointers of an inode, and the bitmap. -/
def resizeBytes (i : Nat) : Set Nat :=
  {a | (inodeAt i ≤ a ∧ a < inodeAt i + 4) ∨ (inodeAt i + 16 ≤ a ∧ a < inodeAt i + 56) ∨
    a ∈ blockBytes 2}

/-- The free blocks. -/
def freeBytes (g : Geometry) (m : Memory) : Set Nat :=
  {a | ∃ b, b < g.nblocks ∧ bitvectorTest m freemap b = true ∧ a ∈ blockBytes b}

theorem owns_iff_of_le (hn : blockCount m i ≤ 10) (s : Slot) (b : Nat) :
    Owns m own (i, s) b ↔ own i ∧ b ≠ 0 ∧
      ∃ k < blockCount m i, s = .direct k ∧ oiDirect m (inodeAt i) k = b := by
  constructor
  · rintro ⟨hown, huse, htarget, hcounts⟩
    refine ⟨hown, ?_⟩
    cases s with
    | direct k => exact ⟨hcounts.resolve_right id, k, huse.2, rfl, htarget⟩
    | indirect | single | indirect2 | outer | double =>
        simp only [Slot.InUse] at huse
        omega
  · rintro ⟨hown, hpos, k, hk, rfl, htarget⟩
    exact ⟨hown, ⟨by omega, hk⟩, htarget, .inl hpos⟩

theorem filled_iff_of_le (hn : blockCount m i ≤ 10) :
    Filled m i ↔ ∀ k < blockCount m i, oiDirect m (inodeAt i) k ≠ 0 := by
  constructor
  · intro hfilled k hk
    exact (hfilled (.direct k) ⟨by omega, hk⟩).resolve_right id
  · intro hdirect s huse
    cases s with
    | direct k => exact .inl (hdirect k huse.2)
    | indirect | single | indirect2 | outer | double =>
        simp only [Slot.InUse] at huse
        omega

/-- Resizing one file spares the other ones. -/
theorem spares_of_resize (hsafe : Safe g m own) {j : Nat} (hij : i ≠ j)
    (hi : i < g.ninodes) (hj : j < g.ninodes)
    (hS : S ⊆ resizeBytes i ∪ freeBytes g m) : Spares m own S j where
  inode a ha := by
    refine fun hpointer => absurd (pointerBytes_subset j hpointer) ?_
    rcases hS ha with hresize | ⟨b, hb, hbit, hmem⟩
    · simp only [resizeBytes, blockBytes, inodeBytes, inodeAt, Set.mem_ofPred_eq,
        Set.mem_Ico] at *
      omega
    · exact fun hinode =>
        not_mem_blockBytes_of_inode (hsafe.free_mem b ⟨hb, hbit⟩) hj hinode hmem
  blocks s c _ howns a ha := by
    have hc : g.IsData c := hsafe.held_mem _ c howns
    rcases hS ha with hresize | ⟨b, hb, hbit, hmem⟩
    · intro hblock
      have hfirst := hc.1
      unfold Geometry.firstData at hfirst
      simp only [resizeBytes, blockBytes, inodeAt, Set.mem_ofPred_eq, Set.mem_Ico] at *
      omega
    · refine not_mem_blockBytes_of_ne ?_ hmem
      rintro rfl
      exact hsafe.held_not_free _ b howns ⟨hb, hbit⟩

theorem takes_direct (hsafe : Safe g m own) (hown : own i)
    (hbound : ∀ j, own j → j < g.ninodes) (hn : blockCount m i < 10)
    (hfree : (ledger g m own).Free b)
    (hchanges : ChangesOnly (resizeBytes i ∪ freeBytes g m) m m')
    (hcount : blockCount m' i = blockCount m i + 1)
    (hdirect : ∀ k < 10, oiDirect m' (inodeAt i) k =
      if k = blockCount m i then b else oiDirect m (inodeAt i) k)
    (hbit : ∀ c < g.nblocks, bitvectorTest m' freemap c =
      (bitvectorTest m freemap c && decide (c ≠ b))) :
    Ledger.Takes (i, .direct (blockCount m i)) b (ledger g m own) (ledger g m' own) where
  empty c hc := by
    obtain ⟨-, -, k, hk, heq, -⟩ := (owns_iff_of_le hn.le _ c).1 hc
    injection heq
    omega
  free := hfree
  holds_iff := by
    have hne : b ≠ 0 := by
      have hdata := (hsafe.free_mem b hfree).three_lt
      omega
    rintro ⟨j, s⟩ c
    by_cases hij : j = i
    · subst hij
      refine (owns_iff_of_le (by omega) s c).trans ?_
      refine Iff.trans ?_ (or_congr_right (owns_iff_of_le hn.le s c).symm)
      simp only [hown, true_and, hcount, Prod.mk.injEq]
      constructor
      · rintro ⟨hpos, k, hk, rfl, rfl⟩
        rw [hdirect k (by omega)] at hpos ⊢
        by_cases hlast : k = blockCount m j
        · exact .inl ⟨by rw [hlast], by rw [if_pos hlast]⟩
        · rw [if_neg hlast] at hpos ⊢
          exact .inr ⟨hpos, k, by omega, rfl, rfl⟩
      · rintro (⟨rfl, rfl⟩ | ⟨hpos, k, hk, rfl, rfl⟩)
        · exact ⟨hne, _, Nat.lt_succ_self _, rfl, by rw [hdirect _ hn, if_pos rfl]⟩
        · exact ⟨hpos, k, by omega, rfl, by rw [hdirect k (by omega), if_neg (by omega)]⟩
    · have hspares : own j → Spares m own (resizeBytes i ∪ freeBytes g m) j := fun hj =>
        spares_of_resize hsafe (Ne.symm hij) (hbound i hown) (hbound j hj) subset_rfl
      refine (Spares.owns_iff hsafe hchanges hspares s c).trans ?_
      simp only [Prod.mk.injEq, hij, false_and, false_or]
      rfl
  free_iff c := by
    simp only [ledger]
    constructor
    · rintro ⟨hc, htest⟩
      rw [hbit c hc, Bool.and_eq_true, decide_eq_true_eq] at htest
      exact ⟨htest.2, hc, htest.1⟩
    · rintro ⟨hne, hc, htest⟩
      exact ⟨hc, by rw [hbit c hc, htest, decide_eq_true hne]; rfl⟩

theorem gives_direct (hsafe : Safe g m own) (hown : own i)
    (hbound : ∀ j, own j → j < g.ninodes) (hn : blockCount m i ≤ 10)
    (hpos : oiDirect m (inodeAt i) (blockCount m' i) ≠ 0)
    (hcount : blockCount m i = blockCount m' i + 1)
    (hchanges : ChangesOnly (resizeBytes i) m m')
    (hdirect : ∀ k < blockCount m' i, oiDirect m' (inodeAt i) k = oiDirect m (inodeAt i) k)
    (hbit : ∀ c < g.nblocks, bitvectorTest m' freemap c =
      (bitvectorTest m freemap c ||
        decide (c = oiDirect m (inodeAt i) (blockCount m' i)))) :
    Ledger.Gives (i, .direct (blockCount m' i)) (oiDirect m (inodeAt i) (blockCount m' i))
      (ledger g m own) (ledger g m' own) where
  holds := (owns_iff_of_le hn _ _).2 ⟨hown, hpos, _, by omega, rfl, rfl⟩
  holds_iff := by
    rintro ⟨j, s⟩ c
    by_cases hij : j = i
    · subst hij
      refine (owns_iff_of_le (by omega) s c).trans ?_
      refine Iff.trans ?_ (and_congr_right fun _ => (owns_iff_of_le hn s c).symm)
      simp only [hown, true_and, ne_eq, Prod.mk.injEq]
      constructor
      · rintro ⟨hc, k, hk, rfl, rfl⟩
        exact ⟨by simp; omega, hc, k, by omega, rfl, (hdirect k hk).symm⟩
      · rintro ⟨hne, hc, k, hk, rfl, rfl⟩
        have hlt : k < blockCount m' j := by
          simp only [Slot.direct.injEq] at hne
          omega
        exact ⟨hc, k, hlt, rfl, hdirect k hlt⟩
    · have hspares : own j → Spares m own (resizeBytes i) j := fun hj =>
        spares_of_resize hsafe (Ne.symm hij) (hbound i hown) (hbound j hj)
          Set.subset_union_left
      refine (Spares.owns_iff hsafe hchanges hspares s c).trans ?_
      simp only [ne_eq, Prod.mk.injEq, hij, false_and, not_false_eq_true, true_and]
      rfl
  free_iff c := by
    have hdata : g.IsData (oiDirect m (inodeAt i) (blockCount m' i)) :=
      hsafe.held_mem (i, .direct (blockCount m' i)) _
        ((owns_iff_of_le hn _ _).2 ⟨hown, hpos, _, by omega, rfl, rfl⟩)
    simp only [ledger]
    constructor
    · rintro ⟨hc, htest⟩
      rw [hbit c hc, Bool.or_eq_true, decide_eq_true_eq] at htest
      exact htest.symm.imp_right fun h => ⟨hc, h⟩
    · rintro (rfl | ⟨hc, htest⟩)
      · exact ⟨hdata.2, by rw [hbit _ hdata.2, decide_eq_true rfl, Bool.or_true]⟩
      · exact ⟨hc, by rw [hbit c hc, htest, Bool.true_or]⟩

/-! ## One block more -/

theorem ospfsSize2nblocks_add {size : Nat} (hlarge : size ≤ 10240) :
    ospfsSize2nblocks ((size + 1024) % 2 ^ 32) = ospfsSize2nblocks size + 1 := by
  unfold ospfsSize2nblocks at *
  omega

theorem eraseBlock_changesOnly (hb : g.IsData b) :
    ChangesOnly (blockBytes b) m (eraseBlock m b) := by
  unfold eraseBlock
  rw [hb.block]
  exact fill_changesOnly m (1024 * b) 1024 0

/-- A step of `add_block` that does not fail. -/
structure Added (g : Geometry) (i b : Nat) (m m' : Memory) : Prop where
  changes : ChangesOnly (resizeBytes i ∪ blockBytes b) m m'
  size : oiSize m' (inodeAt i) = (oiSize m (inodeAt i) + 1024) % 2 ^ 32
  direct : ∀ k < 10, oiDirect m' (inodeAt i) k =
    if k = blockCount m i then b else oiDirect m (inodeAt i) k
  bits : ∀ c < g.nblocks, bitvectorTest m' freemap c =
    (bitvectorTest m freemap c && decide (c ≠ b))
  zero : ∀ a ∈ blockBytes b, m' a = 0

theorem addBlock_of_lt (hn : blockCount m i < 10) :
    addBlock m (inodeAt i) = addDirect m (inodeAt i) (blockCount m i) := by
  have hindir2 : indir2Index (blockCount m i) = -1 := if_pos (by omega)
  have hindir : indirIndex (blockCount m i) = -1 := if_pos hn
  simp only [addBlock, ← blockCount_eq, hindir2, hindir]
  rfl

theorem addDirect_cases (hfits : g.Fits m) (hsafe : Safe g m own) (hi : i < g.ninodes)
    (hn : blockCount m i < 10) :
    addBlock m (inodeAt i) = (some .enospc, m) ∨
      ∃ b m', addBlock m (inodeAt i) = (none, m') ∧ (ledger g m own).Free b ∧
        Added g i b m m' := by
  rw [addBlock_of_lt hn]
  unfold addDirect
  rcases allocateBlock_cases own hfits with ⟨hfull, -⟩ | ⟨b, hfree, halloc⟩
  · exact .inl (by simp [hfull])
  · have hdata : g.IsData b := hsafe.free_mem b hfree
    have hfirst := hdata.1
    have hlast := hdata.2
    have hblocks := g.nblocks_le
    unfold Geometry.firstData at hfirst
    have hpos : b ≠ 0 := by omega
    rw [halloc]
    simp only [hpos, if_false, grow]
    set n := blockCount m i
    set m1 := bitvectorClear m freemap b with hm1
    set m2 := setOiDirect m1 (inodeAt i) n b with hm2
    set m3 := eraseBlock m2 b with hm3
    have h1 : ChangesOnly (blockBytes 2) m m1 := bitvectorClear_changesOnly (by omega)
    have h2 : ChangesOnly _ m1 m2 := store32_changesOnly m1 _ _
    have h3 : ChangesOnly (blockBytes b) m2 m3 := eraseBlock_changesOnly hdata
    have h4 : ChangesOnly _ m3 (setOiSize m3 (inodeAt i) (oiSize m3 (inodeAt i) + 1024)) :=
      store32_changesOnly m3 _ _
    have hin : inodeAt i + 64 ≤ 1024 * b := by
      unfold inodeAt
      omega
    have hin' : 3072 ≤ inodeAt i := Nat.le_add_right _ _
    have hsize : oiSize m3 (inodeAt i) = oiSize m (inodeAt i) := by
      refine (h3.load32 ?_).trans ((h2.load32 ?_).trans (h1.load32 ?_)) <;>
        intro d hd hmem <;> simp only [blockBytes, Set.mem_Ico] at hmem <;> omega
    refine .inr ⟨b, _, rfl, hfree, ?_, ?_, ?_, ?_, ?_⟩
    · refine (((h1.mono ?_).trans (h2.mono ?_)).trans (h3.mono ?_)).trans (h4.mono ?_)
      all_goals
        intro a ha
        simp only [resizeBytes, blockBytes, Set.mem_union, Set.mem_ofPred_eq,
          Set.mem_Ico] at *
        omega
    · rw [← hsize]
      exact load32_store32_same m3 _ _
    · intro k hk
      have hafter : oiDirect (setOiSize m3 (inodeAt i) (oiSize m3 (inodeAt i) + 1024))
          (inodeAt i) k = oiDirect m2 (inodeAt i) k := by
        refine (h4.load32 ?_).trans (h3.load32 ?_) <;>
          intro d hd hmem <;> simp only [blockBytes, Set.mem_Ico] at hmem <;> omega
      have hbefore : oiDirect m1 (inodeAt i) k = oiDirect m (inodeAt i) k := by
        refine h1.load32 ?_
        intro d hd hmem
        simp only [blockBytes, Set.mem_Ico] at hmem
        omega
      rw [hafter]
      split_ifs with hkn
      · subst hkn
        refine (load32_store32_same m1 _ _).trans (Nat.mod_eq_of_lt ?_)
        omega
      · rw [← hbefore]
        exact load32_store32_of_disjoint (by omega)
    · intro c hc
      rw [← bitvectorTest_clear]
      refine (bitvectorTest_changesOnly h4 ?_ (by omega)).trans
        ((bitvectorTest_changesOnly h3 ?_ (by omega)).trans
          (bitvectorTest_changesOnly h2 ?_ (by omega)))
      all_goals
        intro a ha
        simp only [blockBytes, Set.mem_Ico] at *
        omega
    · intro a ha
      have hlow := (Set.mem_Ico.1 ha).1
      rw [h4 a fun hmem => by have := (Set.mem_Ico.1 hmem).2; omega]
      exact if_pos (by rw [hdata.block]; exact Set.mem_Ico.1 ha)

/-! ## One block less -/

theorem ospfsSize2nblocks_sub {size : Nat} (hlarge : size ≤ 10240) (hpos : 0 < size) :
    ospfsSize2nblocks ((size + (2 ^ 32 - 1024)) % 2 ^ 32) + 1 =
      ospfsSize2nblocks size := by
  unfold ospfsSize2nblocks
  omega

/-- A step of `remove_block` that does not fail. -/
structure Removed (g : Geometry) (i : Nat) (m m' : Memory) : Prop where
  changes : ChangesOnly (resizeBytes i) m m'
  size : oiSize m' (inodeAt i) = (oiSize m (inodeAt i) + (2 ^ 32 - 1024)) % 2 ^ 32
  direct : ∀ k < 10, oiDirect m' (inodeAt i) k =
    if k = blockCount m i - 1 then 0 else oiDirect m (inodeAt i) k
  bits : ∀ c < g.nblocks, bitvectorTest m' freemap c =
    (bitvectorTest m freemap c ||
      decide (c = oiDirect m (inodeAt i) (blockCount m i - 1)))

theorem removeBlock_of_le (hpos : 0 < blockCount m i) (hn : blockCount m i ≤ 10) :
    removeBlock m (inodeAt i) = removeDirect m (inodeAt i) (blockCount m i - 1) := by
  have hindir : indirIndex (blockCount m i - 1) = -1 := if_pos (by omega)
  have hdirect : directIndex (blockCount m i - 1) = blockCount m i - 1 := if_pos hindir
  simp only [removeBlock, ← blockCount_eq, hdirect, if_neg hpos.ne', if_pos hn]

theorem removeBlock_removed (hfits : g.Fits m) (hpos : 0 < blockCount m i)
    (hn : blockCount m i ≤ 10)
    (hdata : g.IsData (oiDirect m (inodeAt i) (blockCount m i - 1))) :
    ∃ m', removeBlock m (inodeAt i) = (none, m') ∧ Removed g i m m' := by
  rw [removeBlock_of_le hpos hn]
  unfold removeDirect
  have hfirst := hdata.three_lt
  have hlast := hdata.2
  have hblocks := g.nblocks_le
  rw [if_neg (by omega), freeBlock_of_isData hfits hdata]
  simp only [shrink]
  set b := oiDirect m (inodeAt i) (blockCount m i - 1)
  set n := blockCount m i - 1
  set m1 := bitvectorSet m freemap b
  set m2 := setOiDirect m1 (inodeAt i) n 0
  have h1 : ChangesOnly (blockBytes 2) m m1 := bitvectorSet_changesOnly (by omega)
  have h2 : ChangesOnly _ m1 m2 := store32_changesOnly m1 _ _
  have h3 : ChangesOnly _ m2 (setOiSize m2 (inodeAt i)
      ((oiSize m2 (inodeAt i) + (2 ^ 32 - 1024)) % 2 ^ 32)) := store32_changesOnly m2 _ _
  have hin' : 3072 ≤ inodeAt i := Nat.le_add_right _ _
  have hsize : oiSize m2 (inodeAt i) = oiSize m (inodeAt i) := by
    refine (h2.load32 ?_).trans (h1.load32 ?_) <;>
      intro d hd hmem <;> simp only [blockBytes, Set.mem_Ico] at hmem <;> omega
  refine ⟨_, rfl, ?_, ?_, ?_, ?_⟩
  · refine ((h1.mono ?_).trans (h2.mono ?_)).trans (h3.mono ?_)
    all_goals
      intro a ha
      simp only [resizeBytes, blockBytes, Set.mem_ofPred_eq, Set.mem_Ico] at *
      omega
  · rw [← hsize]
    exact (load32_store32_same m2 _ _).trans (Nat.mod_mod _ _)
  · intro k hk
    have hafter : oiDirect (setOiSize m2 (inodeAt i)
        ((oiSize m2 (inodeAt i) + (2 ^ 32 - 1024)) % 2 ^ 32)) (inodeAt i) k =
        oiDirect m2 (inodeAt i) k := by
      refine h3.load32 ?_
      intro d hd hmem
      simp only [Set.mem_Ico] at hmem
      omega
    have hbefore : oiDirect m1 (inodeAt i) k = oiDirect m (inodeAt i) k := by
      refine h1.load32 ?_
      intro d hd hmem
      simp only [blockBytes, Set.mem_Ico] at hmem
      omega
    rw [hafter]
    split_ifs with hkn
    · rw [hkn]
      exact load32_store32_same m1 _ _
    · rw [← hbefore]
      exact load32_store32_of_disjoint (by omega)
  · intro c hc
    rw [← bitvectorTest_set]
    refine (bitvectorTest_changesOnly h3 ?_ (by omega)).trans
      (bitvectorTest_changesOnly h2 ?_ (by omega))
    all_goals
      intro a ha
      simp only [blockBytes, Set.mem_Ico] at *
      omega

/-! ## The loops -/

/-- The owners are files of the disk. -/
def Owners (g : Geometry) (own : Nat → Prop) : Prop := ∀ j, own j → j < g.ninodes

/-- The direct pointers past the block count are 0. -/
def PastZero (m : Memory) (i : Nat) : Prop :=
  ∀ k < 10, blockCount m i ≤ k → oiDirect m (inodeAt i) k = 0

/-- The blocks from `n` on are blocks of zeros. -/
def Fresh (m : Memory) (i n : Nat) : Prop :=
  ∀ k < 10, n ≤ k → k < blockCount m i →
    oiDirect m (inodeAt i) k ≠ 0 ∧ ∀ a ∈ blockBytes (oiDirect m (inodeAt i) k), m a = 0

/-- What stays as it is while a file is resized. -/
structure Resizes (g : Geometry) (own : Nat → Prop) (i : Nat) (m m' : Memory) : Prop where
  fits : g.Fits m'
  changes : ChangesOnly (resizeBytes i ∪ freeBytes g m) m m'
  moves : Ledger.Moves (ledger g m own) (ledger g m' own)
  direct : ∀ k < 10, k < blockCount m i → k < blockCount m' i →
    oiDirect m' (inodeAt i) k = oiDirect m (inodeAt i) k
  fresh : Fresh m' i (blockCount m i)
  pastZero : PastZero m i → PastZero m' i
  filled : Filled m i → Filled m' i

theorem resizeBytes_not_super {a : Nat} (ha : a ∈ resizeBytes i) : a ∉ blockBytes 1 := by
  simp only [resizeBytes, blockBytes, inodeAt, Set.mem_ofPred_eq, Set.mem_Ico] at *
  omega

theorem resize_not_super (hsafe : Safe g m own) {a : Nat}
    (ha : a ∈ resizeBytes i ∪ freeBytes g m) : a ∉ blockBytes 1 := by
  rcases ha with hresize | ⟨b, hb, hbit, hmem⟩
  · exact resizeBytes_not_super hresize
  · have hdata := (hsafe.free_mem b ⟨hb, hbit⟩).three_lt
    exact not_mem_blockBytes_of_ne (by omega) hmem

theorem blockCount_of_size {size : Nat} (h : oiSize m (inodeAt i) = size) :
    blockCount m i = ospfsSize2nblocks size := by
  rw [blockCount, h]

theorem Added.resizes (hfits : g.Fits m) (hsafe : Safe g m own) (hown : own i)
    (howners : Owners g own) (hsize : oiSize m (inodeAt i) ≤ 10240)
    (hn : blockCount m i < 10) (hfree : (ledger g m own).Free b)
    (h : Added g i b m m') :
    Resizes g own i m m' ∧ blockCount m' i = blockCount m i + 1 := by
  have hcount : blockCount m' i = blockCount m i + 1 := by
    rw [blockCount_of_size h.size, ospfsSize2nblocks_add hsize]
    rfl
  have hchanges : ChangesOnly (resizeBytes i ∪ freeBytes g m) m m' :=
    h.changes.mono (Set.union_subset_union_right _ fun a ha =>
      ⟨b, hfree.1, hfree.2, ha⟩)
  have hpos : b ≠ 0 := by
    have hdata := (hsafe.free_mem b hfree).three_lt
    omega
  refine ⟨⟨?_, hchanges, ?_, ?_, ?_, ?_, ?_⟩, hcount⟩
  · exact hfits.changesOnly hchanges fun a ha => resize_not_super hsafe ha
  · exact .takes (.refl _)
      (takes_direct hsafe hown howners hn hfree hchanges hcount h.direct h.bits)
  · intro k hk hlt _
    rw [h.direct k hk, if_neg (by omega)]
  · intro k hk hle hlt
    rw [h.direct k hk, if_pos (by omega)]
    exact ⟨hpos, h.zero⟩
  · intro hpast k hk hle
    rw [h.direct k hk, if_neg (by omega)]
    exact hpast k hk (by omega)
  · rw [filled_iff_of_le hn.le, filled_iff_of_le (by omega)]
    intro hfilled k hk
    rw [h.direct k (by omega)]
    split_ifs with heq
    · exact hpos
    · exact hfilled k (by omega)

theorem Removed.resizes (hfits : g.Fits m) (hsafe : Safe g m own) (hown : own i)
    (howners : Owners g own) (hsize : oiSize m (inodeAt i) ≤ 10240)
    (hpos : 0 < blockCount m i) (hn : blockCount m i ≤ 10)
    (hlast : oiDirect m (inodeAt i) (blockCount m i - 1) ≠ 0) (h : Removed g i m m') :
    Resizes g own i m m' ∧ blockCount m i = blockCount m' i + 1 := by
  have hcount : blockCount m i = blockCount m' i + 1 := by
    have hsub := ospfsSize2nblocks_sub hsize (by
      unfold blockCount ospfsSize2nblocks at hpos
      omega)
    rw [blockCount_of_size h.size, hsub]
    rfl
  have heq : blockCount m i - 1 = blockCount m' i := by omega
  have hdirect := h.direct
  have hbits := h.bits
  rw [heq] at hdirect hbits hlast
  refine ⟨⟨?_, h.changes.mono Set.subset_union_left, ?_, ?_, ?_, ?_, ?_⟩, hcount⟩
  · exact hfits.changesOnly h.changes fun a ha => resizeBytes_not_super ha
  · refine .gives (.refl _)
      (gives_direct hsafe hown howners hn hlast hcount h.changes ?_ hbits)
    intro k hk
    rw [hdirect k (by omega), if_neg (by omega)]
  · intro k hk _ hlt
    rw [hdirect k hk, if_neg (by omega)]
  · intro k _ hle hlt
    omega
  · intro hpast k hk hle
    rw [hdirect k hk]
    split_ifs with hk'
    · rfl
    · exact hpast k hk (by omega)
  · rw [filled_iff_of_le hn, filled_iff_of_le (by omega)]
    intro hfilled k hk
    rw [hdirect k (by omega), if_neg (by omega)]
    exact hfilled k (by omega)

theorem Resizes.refl (hfits : g.Fits m) : Resizes g own i m m where
  fits := hfits
  changes := .refl m
  moves := .refl _
  direct _ _ _ _ := rfl
  fresh _ _ hle hlt := absurd hlt (not_lt.2 hle)
  pastZero := id
  filled := id

/-- The blocks of a file are not touched when it is resized. -/
theorem Resizes.block (h : Resizes g own i m m') (hsafe : Safe g m own) (hown : own i)
    (howners : Owners g own) {k a : Nat} (hk : k < 10) (hlt : k < blockCount m i)
    (hpos : oiDirect m (inodeAt i) k ≠ 0)
    (ha : a ∈ blockBytes (oiDirect m (inodeAt i) k)) : m' a = m a := by
  have howns : Owns m own (i, .direct k) (oiDirect m (inodeAt i) k) :=
    ⟨hown, ⟨hk, hlt⟩, rfl, .inl hpos⟩
  have hdata : g.IsData (oiDirect m (inodeAt i) k) := hsafe.held_mem _ _ howns
  have hinode : a ∉ inodeBytes i := fun hmem =>
    not_mem_blockBytes_of_inode hdata (howners i hown) hmem ha
  apply h.changes a
  rintro ((hsize | hdirect | hbitmap) | ⟨b, hb, hbit, hmem⟩)
  · exact hinode (by simp only [inodeBytes, Set.mem_Ico]; omega)
  · exact hinode (by simp only [inodeBytes, Set.mem_Ico]; omega)
  · have hthree := hdata.three_lt
    exact not_mem_blockBytes_of_ne (by omega) hbitmap ha
  · refine not_mem_blockBytes_of_ne ?_ hmem ha
    rintro rfl
    exact hsafe.held_not_free _ _ howns ⟨hb, hbit⟩

theorem Resizes.trans (hown : own i) (howners : Owners g own) (hsafe : Safe g m' own)
    (h : Resizes g own i m m') (h' : Resizes g own i m' m'')
    (hchanges : ChangesOnly (resizeBytes i ∪ freeBytes g m) m' m'')
    (hcount : min (blockCount m i) (blockCount m'' i) ≤ blockCount m' i) :
    Resizes g own i m m'' where
  fits := h'.fits
  changes := h.changes.trans hchanges
  moves := h.moves.trans h'.moves
  direct k hk hlt hlt' := by
    have hmid : k < blockCount m' i := lt_of_lt_of_le (lt_min hlt hlt') hcount
    rw [h'.direct k hk hmid hlt', h.direct k hk hlt hmid]
  fresh k hk hle hlt := by
    by_cases hmid : k < blockCount m' i
    · obtain ⟨hpos, hzero⟩ := h.fresh k hk hle hmid
      rw [h'.direct k hk hmid hlt]
      refine ⟨hpos, fun a ha => ?_⟩
      rw [h'.block hsafe hown howners hk hmid hpos ha]
      exact hzero a ha
    · exact h'.fresh k hk (not_lt.1 hmid) hlt
  pastZero hpast := h'.pastZero (h.pastZero hpast)
  filled hfilled := h'.filled (h.filled hfilled)

/-- The result of the loop over `add_block` after `c` rounds. -/
structure Grows (g : Geometry) (own : Nat → Prop) (i c : Nat) (m m' : Memory) : Prop
    extends Resizes g own i m m' where
  size : oiSize m' (inodeAt i) = oiSize m (inodeAt i) + 1024 * c
  count : blockCount m' i = blockCount m i + c
  free : freeBytes g m' ⊆ freeBytes g m

theorem Added.grows (hfits : g.Fits m) (hsafe : Safe g m own) (hown : own i)
    (howners : Owners g own) (hsize : oiSize m (inodeAt i) ≤ 10240)
    (hn : blockCount m i < 10) (hfree : (ledger g m own).Free b)
    (h : Added g i b m m') : Grows g own i 1 m m' := by
  obtain ⟨hresizes, hcount⟩ := h.resizes hfits hsafe hown howners hsize hn hfree
  refine ⟨hresizes, ?_, hcount, ?_⟩
  · rw [h.size]
    omega
  · rintro a ⟨c, hc, hbit, ha⟩
    rw [h.bits c hc, Bool.and_eq_true] at hbit
    exact ⟨c, hc, hbit.1, ha⟩

theorem Grows.trans {c c' : Nat} (hown : own i) (howners : Owners g own)
    (hsafe : Safe g m' own) (h : Grows g own i c m m') (h' : Grows g own i c' m' m'') :
    Grows g own i (c + c') m m'' where
  toResizes := h.toResizes.trans hown howners hsafe h'.toResizes
    (h'.changes.mono (Set.union_subset_union_right _ h.free))
    ((min_le_left _ _).trans (by rw [h.count]; omega))
  size := by rw [h'.size, h.size]; ring
  count := by rw [h'.count, h.count]; ring
  free := h'.free.trans h.free

/-- The loop over `add_block` adds what is missing or stops with `-ENOSPC`. -/
theorem growLoop_spec {newSize : Nat} (hown : own i) (howners : Owners g own)
    (hnew : newSize ≤ 10240) (rounds : Nat) (counter : Nat) (hfits : g.Fits m)
    (hsafe : Safe g m own) (hsize : oiSize m (inodeAt i) ≤ 10240)
    (hrounds : ospfsSize2nblocks newSize ≤ blockCount m i + rounds) :
    ∃ r c m', growLoop (inodeAt i) newSize rounds counter m = (r, counter + c, m') ∧
      Grows g own i c m m' ∧ oiSize m' (inodeAt i) ≤ 10240 ∧
      (r = none ∧ (blockCount m' i = ospfsSize2nblocks newSize ∨
          c = 0 ∧ ospfsSize2nblocks newSize ≤ blockCount m i) ∨
        r = some .enospc ∧ blockCount m' i < ospfsSize2nblocks newSize) := by
  induction rounds generalizing m counter with
  | zero =>
      exact ⟨none, 0, m, rfl, ⟨.refl hfits, by simp, by simp, subset_rfl⟩, by omega,
        .inl ⟨rfl, .inr ⟨rfl, by omega⟩⟩⟩
  | succ rounds ih =>
      have hten : ospfsSize2nblocks newSize ≤ 10 := by
        unfold ospfsSize2nblocks
        omega
      rw [growLoop, ← blockCount_eq]
      split_ifs with hlt
      · rcases addDirect_cases hfits hsafe (howners i hown) (by omega) with
          hfull | ⟨b, m1, hadd, hfree, hadded⟩
        · rw [hfull]
          exact ⟨_, 0, m, rfl, ⟨.refl hfits, by simp, by simp, subset_rfl⟩, by omega,
            .inr ⟨rfl, hlt⟩⟩
        · rw [hadd]
          have hgrows := hadded.grows hfits hsafe hown howners hsize (by omega) hfree
          have hsize1 : oiSize m1 (inodeAt i) ≤ 10240 := by
            have hlow : oiSize m (inodeAt i) ≤ 9216 := by
              unfold blockCount ospfsSize2nblocks at hlt
              omega
            rw [hgrows.size]
            omega
          have hsafe1 := hsafe.moves hgrows.moves
          obtain ⟨r, c, m', hloop, hgrows', hsize', hresult⟩ := ih (counter + 1) hgrows.fits
            hsafe1 hsize1 (by rw [hgrows.count]; omega)
          refine ⟨r, 1 + c, m', ?_, hgrows.trans hown howners hsafe1 hgrows', hsize', ?_⟩
          · exact hloop.trans (by rw [Nat.add_assoc])
          · refine hresult.imp_left fun ⟨hr, hcount⟩ => ⟨hr, .inl ?_⟩
            rcases hcount with hcount | ⟨rfl, hle⟩
            · exact hcount
            · have h1 := hgrows.count
              have h2 := hgrows'.count
              omega
      · exact ⟨none, 0, m, rfl, ⟨.refl hfits, by simp, by simp, subset_rfl⟩, by omega,
          .inl ⟨rfl, .inr ⟨rfl, by omega⟩⟩⟩

/-- The result of `c` calls of `remove_block`. -/
structure Shrinks (g : Geometry) (own : Nat → Prop) (i c : Nat) (m m' : Memory) : Prop
    extends Resizes g own i m m' where
  only : ChangesOnly (resizeBytes i) m m'
  count : blockCount m i = blockCount m' i + c
  size : 0 < blockCount m' i → oiSize m' (inodeAt i) ≤ 10240

theorem Shrinks.refl (hfits : g.Fits m)
    (hsize : 0 < blockCount m i → oiSize m (inodeAt i) ≤ 10240) :
    Shrinks g own i 0 m m :=
  ⟨.refl hfits, .refl m, rfl, hsize⟩

theorem Shrinks.trans {c c' : Nat} (hown : own i) (howners : Owners g own)
    (hsafe : Safe g m' own) (h : Shrinks g own i c m m') (h' : Shrinks g own i c' m' m'') :
    Shrinks g own i (c + c') m m'' where
  toResizes := h.toResizes.trans hown howners hsafe h'.toResizes (h'.only.mono Set.subset_union_left)
    ((min_le_right _ _).trans (by rw [h'.count]; omega))
  only := h.only.trans h'.only
  count := by rw [h.count, h'.count]; ring
  size := h'.size

/-- A file with blocks loses its last one. -/
theorem removeBlock_shrinks (hfits : g.Fits m) (hsafe : Safe g m own) (hown : own i)
    (howners : Owners g own) (hfilled : Filled m i) (hpos : 0 < blockCount m i)
    (hsize : oiSize m (inodeAt i) ≤ 10240) :
    ∃ m', removeBlock m (inodeAt i) = (none, m') ∧ Shrinks g own i 1 m m' := by
  have hn : blockCount m i ≤ 10 := by
    unfold blockCount ospfsSize2nblocks
    omega
  have hlast := (filled_iff_of_le hn).1 hfilled (blockCount m i - 1) (by omega)
  have hdata : g.IsData (oiDirect m (inodeAt i) (blockCount m i - 1)) :=
    hsafe.held_mem (i, .direct (blockCount m i - 1)) _
      ((owns_iff_of_le hn _ _).2 ⟨hown, hlast, _, by omega, rfl, rfl⟩)
  obtain ⟨m', hremove, hremoved⟩ := removeBlock_removed hfits hpos hn hdata
  obtain ⟨hresizes, hcount⟩ :=
    hremoved.resizes hfits hsafe hown howners hsize hpos hn hlast
  refine ⟨m', hremove, hresizes, hremoved.changes, hcount, fun hpos' => ?_⟩
  have hlow : 1024 < oiSize m (inodeAt i) := by
    have hcount' := hcount
    unfold blockCount ospfsSize2nblocks at hcount' hpos'
    omega
  rw [hremoved.size]
  omega

theorem rollBack_shrinks (hown : own i) (howners : Owners g own) (c : Nat)
    (hfits : g.Fits m) (hsafe : Safe g m own) (hfilled : Filled m i)
    (hc : c ≤ blockCount m i) (hsize : 0 < blockCount m i → oiSize m (inodeAt i) ≤ 10240) :
    Shrinks g own i c m (rollBack (inodeAt i) c m) := by
  induction c generalizing m with
  | zero => exact .refl hfits hsize
  | succ c ih =>
      obtain ⟨m1, hremove, hshrinks⟩ := removeBlock_shrinks hfits hsafe hown howners
        hfilled (by omega) (hsize (by omega))
      have hcount := hshrinks.count
      have hsafe1 := hsafe.moves hshrinks.moves
      have hrest := ih hshrinks.fits hsafe1 (hshrinks.filled hfilled) (by omega)
        hshrinks.size
      rw [rollBack, hremove, Nat.add_comm]
      exact hshrinks.trans hown howners hsafe1 hrest

theorem shrinkLoop_spec (newSize : Nat) (hown : own i) (howners : Owners g own)
    (rounds : Nat) (r : Option Errno) (hfits : g.Fits m) (hsafe : Safe g m own)
    (hfilled : Filled m i) (hsize : 0 < blockCount m i → oiSize m (inodeAt i) ≤ 10240)
    (hrounds : blockCount m i ≤ ospfsSize2nblocks newSize + rounds) :
    ∃ r' c m', shrinkLoop (inodeAt i) newSize rounds r m = (r', m') ∧
      Shrinks g own i c m m' ∧
      (c = 0 ∧ r' = r ∧ blockCount m i ≤ ospfsSize2nblocks newSize ∨
        0 < c ∧ r' = none ∧ blockCount m' i = ospfsSize2nblocks newSize) := by
  induction rounds generalizing m r with
  | zero => exact ⟨r, 0, m, rfl, .refl hfits hsize, .inl ⟨rfl, rfl, hrounds⟩⟩
  | succ rounds ih =>
      rw [shrinkLoop, ← blockCount_eq]
      split_ifs with hlt
      · obtain ⟨m1, hremove, hshrinks⟩ := removeBlock_shrinks hfits hsafe hown howners
          hfilled (by omega) (hsize (by omega))
        have hcount := hshrinks.count
        have hsafe1 := hsafe.moves hshrinks.moves
        obtain ⟨r', c, m', hloop, hshrinks', hresult⟩ := ih none hshrinks.fits
          hsafe1 (hshrinks.filled hfilled) hshrinks.size (by omega)
        rw [hremove]
        refine ⟨r', 1 + c, m', hloop, hshrinks.trans hown howners hsafe1 hshrinks', .inr ?_⟩
        rcases hresult with ⟨rfl, rfl, hle⟩ | hdone
        · have hcount' := hshrinks'.count
          exact ⟨by omega, rfl, by omega⟩
        · exact ⟨by omega, hdone.2⟩
      · exact ⟨r, 0, m, rfl, .refl hfits hsize, .inl ⟨rfl, rfl, by omega⟩⟩

/-- The size is set to another size with the same number of blocks. -/
theorem setOiSize_shrinks {size : Nat} (hown : own i) (howners : Owners g own)
    (hfits : g.Fits m) (hsafe : Safe g m own) (hle : size ≤ 10240)
    (hcount : blockCount m i = ospfsSize2nblocks size) :
    Shrinks g own i 0 m (setOiSize m (inodeAt i) size) ∧
      oiSize (setOiSize m (inodeAt i) size) (inodeAt i) = size := by
  have hsize : oiSize (setOiSize m (inodeAt i) size) (inodeAt i) = size :=
    (load32_store32_same m _ _).trans (Nat.mod_eq_of_lt (by omega))
  have hstore : ChangesOnly _ m (setOiSize m (inodeAt i) size) := store32_changesOnly m _ _
  have hchanges : ChangesOnly (resizeBytes i) m (setOiSize m (inodeAt i) size) :=
    hstore.mono fun a ha => .inl (Set.mem_Ico.1 ha)
  have hcount' : blockCount (setOiSize m (inodeAt i) size) i = blockCount m i :=
    (blockCount_of_size hsize).trans hcount.symm
  have hten : blockCount m i ≤ 10 := by
    rw [hcount]
    unfold ospfsSize2nblocks
    omega
  have hdirect : ∀ k < 10, oiDirect (setOiSize m (inodeAt i) size) (inodeAt i) k =
      oiDirect m (inodeAt i) k := fun k _ => load32_store32_of_disjoint (by omega)
  have hsame : Ledger.Same (ledger g m own)
      (ledger g (setOiSize m (inodeAt i) size) own) := by
    refine ⟨?_, fun c => and_congr_right fun hc => ?_⟩
    · rintro ⟨j, s⟩ c
      by_cases hij : j = i
      · subst hij
        refine (owns_iff_of_le (hcount'.trans_le hten) s c).trans
          (Iff.trans ?_ (owns_iff_of_le hten s c).symm)
        rw [hcount']
        refine and_congr_right fun _ => and_congr_right fun _ => exists_congr fun k =>
          and_congr_right fun hk => ?_
        rw [hdirect k (by omega)]
      · exact Spares.owns_iff hsafe hchanges (fun hj =>
          spares_of_resize hsafe (Ne.symm hij) (howners i hown) (howners j hj)
            Set.subset_union_left) s c
    · have hblocks := g.nblocks_le
      rw [bitvectorTest_changesOnly hstore (fun a ha => ?_) (by omega)]
      simp only [blockBytes, inodeAt, Set.mem_Ico] at *
      omega
  refine ⟨⟨⟨?_, hchanges.mono Set.subset_union_left, .same (.refl _) hsame, ?_, ?_, ?_, ?_⟩,
    hchanges, hcount'.symm, fun _ => hsize.trans_le hle⟩, hsize⟩
  · exact hfits.changesOnly hchanges fun a ha => resizeBytes_not_super ha
  · exact fun k hk _ _ => hdirect k hk
  · exact fun k _ hle hlt => absurd (hlt.trans_eq hcount') (not_lt.2 hle)
  · intro hpast k hk hlt
    rw [hdirect k hk]
    exact hpast k hk (hcount'.symm.trans_le hlt)
  · rw [filled_iff_of_le hten, filled_iff_of_le (hcount'.trans_le hten), hcount']
    intro hfilled k hk
    rw [hdirect k (by omega)]
    exact hfilled k hk

/-! ## `change_size` -/

theorem changeSize_of_grown {oi newSize counter : Nat}
    (h : growLoop oi newSize maxRounds 0 m = (none, counter, m')) :
    changeSize m oi newSize =
      ((shrinkLoop oi newSize maxRounds none m').1,
        setOiSize (shrinkLoop oi newSize maxRounds none m').2 oi newSize) := by
  simp only [changeSize, h, Option.isSome_none, Bool.false_eq_true, if_false]

theorem changeSize_of_failed {oi newSize counter : Nat} {errno : Errno}
    (h : growLoop oi newSize maxRounds 0 m = (some errno, counter, m')) :
    changeSize m oi newSize =
      ((shrinkLoop oi (oiSize m oi) maxRounds (some errno) (rollBack oi counter m')).1,
        setOiSize
          (shrinkLoop oi (oiSize m oi) maxRounds (some errno) (rollBack oi counter m')).2
          oi (oiSize m oi)) := by
  simp only [changeSize, h, Option.isSome_some, if_true]

/-- The size changes to the new one, or there is no space and nothing changes. -/
theorem changeSize_spec {newSize : Nat} (hown : own i) (howners : Owners g own)
    (hfits : g.Fits m) (hsafe : Safe g m own) (hfilled : Filled m i)
    (hsize : oiSize m (inodeAt i) ≤ 10240) (hnew : newSize ≤ 10240) :
    ∃ r m', changeSize m (inodeAt i) newSize = (r, m') ∧ Resizes g own i m m' ∧
      (r = none ∧ oiSize m' (inodeAt i) = newSize ∨
        r = some .enospc ∧ oiSize m' (inodeAt i) = oiSize m (inodeAt i)) := by
  have hnewBlocks : ospfsSize2nblocks newSize ≤ 10 := by
    unfold ospfsSize2nblocks
    omega
  have hrounds : (10 : Nat) ≤ maxRounds := by decide
  have hblocks : blockCount m i = ospfsSize2nblocks (oiSize m (inodeAt i)) := rfl
  obtain ⟨r, c, m1, hgrow, hgrows, hsize1, hresult⟩ := growLoop_spec hown howners hnew
    maxRounds 0 hfits hsafe hsize (by omega)
  have hcount1 := hgrows.count
  have hsafe1 := hsafe.moves hgrows.moves
  have hten1 : blockCount m1 i ≤ 10 := by
    unfold blockCount ospfsSize2nblocks
    omega
  rcases hresult with ⟨rfl, hdone⟩ | ⟨rfl, hfail⟩
  · obtain ⟨r', c', m2, hshrink, hshrinks, hresult⟩ := shrinkLoop_spec newSize
      hown howners maxRounds none hgrows.fits hsafe1 (hgrows.filled hfilled)
      (fun _ => hsize1) (by omega)
    have hcount2 := hshrinks.count
    have hequal : blockCount m2 i = ospfsSize2nblocks newSize := by
      rcases hresult with ⟨rfl, -, hle⟩ | ⟨-, -, heq⟩
      · omega
      · exact heq
    have hr' : r' = none := by
      rcases hresult with ⟨-, rfl, -⟩ | ⟨-, rfl, -⟩ <;> rfl
    have hsafe2 := hsafe1.moves hshrinks.moves
    obtain ⟨hset, hsize'⟩ := setOiSize_shrinks hown howners hshrinks.fits hsafe2 hnew hequal
    have hboth := hshrinks.trans hown howners hsafe2 hset
    refine ⟨none, _, ?_, hgrows.toResizes.trans hown howners hsafe1 hboth.toResizes
      (hboth.only.mono Set.subset_union_left) (by omega), .inl ⟨rfl, hsize'⟩⟩
    rw [changeSize_of_grown hgrow, hshrink, hr']
  · have hback := rollBack_shrinks hown howners c hgrows.fits hsafe1
      (hgrows.filled hfilled) (by omega)
      (fun _ => hsize1)
    have hcountBack := hback.count
    have hsafeBack := hsafe1.moves hback.moves
    obtain ⟨r', c', m2, hshrink, hshrinks, hresult⟩ :=
      shrinkLoop_spec (oiSize m (inodeAt i)) hown howners maxRounds
        (some .enospc) hback.fits hsafeBack
        (hback.filled (hgrows.filled hfilled)) hback.size (by omega)
    have hcount2 := hshrinks.count
    rcases hresult with ⟨rfl, rfl, -⟩ | ⟨hpos, -, hequal⟩
    · have hsafe2 := hsafeBack.moves hshrinks.moves
      obtain ⟨hset, hsize'⟩ := setOiSize_shrinks hown howners hshrinks.fits hsafe2 hsize
        (by omega)
      have hall := (hback.trans hown howners hsafeBack hshrinks).trans hown howners hsafe2 hset
      refine ⟨some .enospc, _, ?_, hgrows.toResizes.trans hown howners hsafe1 hall.toResizes
        (hall.only.mono Set.subset_union_left) (by omega), .inr ⟨rfl, hsize'⟩⟩
      rw [changeSize_of_failed hgrow, Nat.zero_add, hshrink]
    · omega

end Cs111Labs.Ospfs
