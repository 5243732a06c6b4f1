import Cs111Labs.Ospfs.Unlinks

/-!
# Files with an indirect block

Up to 266 blocks.  The first block that is removed takes the indirect block along;
the blocks whose numbers stood in it are lost.
-/

namespace Cs111Labs.Ospfs

open Foundation Memory

variable {lossless : Prop} {g : Geometry} {m m' m'' : Memory} {own : Nat → Prop} {a b i j k n : Nat}
  {S : Set Nat}

theorem owns_iff_of_single (hn : blockCount m i ≤ 266) (s : Slot) (b : Nat) :
    Owns m own (i, s) b ↔ own i ∧
      ((∃ k < 10, k < blockCount m i ∧ s = .direct k ∧ oiDirect m (inodeAt i) k = b ∧ b ≠ 0) ∨
        (10 < blockCount m i ∧ s = .indirect ∧ oiIndirect m (inodeAt i) = b) ∨
        ∃ k, 10 + k < blockCount m i ∧ s = .single k ∧
          (Slot.single k).target m (inodeAt i) = b ∧ b ≠ 0) := by
  constructor
  · rintro ⟨hown, huse, htarget, hcounts⟩
    refine ⟨hown, ?_⟩
    cases s with
    | direct k => exact .inl ⟨k, huse.1, huse.2, rfl, htarget, hcounts.resolve_right id⟩
    | indirect => exact .inr (.inl ⟨huse, rfl, htarget⟩)
    | single k => exact .inr (.inr ⟨k, huse.2, rfl, htarget, hcounts.resolve_right id⟩)
    | indirect2 | outer | double =>
        simp only [Slot.InUse] at huse
        omega
  · rintro ⟨hown, ⟨k, hk, hlt, rfl, htarget, hpos⟩ | ⟨hlt, rfl, htarget⟩ |
      ⟨k, hlt, rfl, htarget, hpos⟩⟩
    · exact ⟨hown, ⟨hk, hlt⟩, htarget, .inl hpos⟩
    · exact ⟨hown, hlt, htarget, .inr trivial⟩
    · exact ⟨hown, ⟨by omega, hlt⟩, htarget, .inl hpos⟩

theorem Stored.isData_indirect (h : Stored lossless g m own) (hown : own i)
    (hn : 10 < blockCount m i) : g.IsData (oiIndirect m (inodeAt i)) :=
  h.safe.held_mem (i, .indirect) _ ⟨hown, hn, rfl, .inr trivial⟩

theorem inode_le_of_isData (hb : g.IsData b) (hi : i < g.ninodes) :
    inodeAt i + 64 ≤ 1024 * b := by
  have hfirst := hb.1
  unfold Geometry.firstData at hfirst
  unfold inodeAt
  omega

theorem freeBlock_zero (hfits : g.Fits m) : freeBlock m 0 = m := by
  unfold freeBlock
  rw [hfits.firstinob]
  exact if_neg (by omega)

/-- Block 0 is not freed. -/
theorem freeBlock_changesOnly (hfits : g.Fits m) (hb : b = 0 ∨ g.IsData b) :
    ChangesOnly (blockBytes 2) m (freeBlock m b) := by
  rcases hb with rfl | hdata
  · rw [freeBlock_zero hfits]
    exact .refl m
  · have hlast := hdata.2
    have hblocks := g.nblocks_le
    rw [freeBlock_of_isData hfits hdata]
    exact bitvectorSet_changesOnly (by omega)

theorem bitvectorTest_freeBlock (hfits : g.Fits m) (hb : b = 0 ∨ g.IsData b) {c : Nat}
    (hbit : bitvectorTest (freeBlock m b) freemap c = true) :
    bitvectorTest m freemap c = true ∨ c = b ∧ g.IsData b := by
  rcases hb with rfl | hdata
  · rw [freeBlock_zero hfits] at hbit
    exact .inl hbit
  · rw [freeBlock_of_isData hfits hdata, bitvectorTest_set, Bool.or_eq_true,
      decide_eq_true_eq] at hbit
    exact hbit.imp_right fun heq => ⟨heq, hdata⟩

/-! ## Removing the indirect block -/

theorem removeBlock_of_single (hn : 10 < blockCount m i) (hn' : blockCount m i ≤ 266) :
    removeBlock m (inodeAt i) = removeSingle m (inodeAt i) (blockCount m i - 11) 0 := by
  have hindir2 : indir2Index (blockCount m i - 1) = -1 := if_pos (by omega)
  have hindir : indirIndex (blockCount m i - 1) = 0 := by
    unfold indirIndex
    rw [if_neg (by omega), hindir2]
    rfl
  have hdirect : directIndex (blockCount m i - 1) = blockCount m i - 11 := by
    unfold directIndex
    rw [hindir, if_neg (by decide), if_pos rfl]
    omega
  simp only [removeBlock, ← blockCount_eq, hindir, hdirect]
  rw [if_neg (by omega), if_neg (by omega), if_pos (by omega)]

theorem removeSingle_eq (m : Memory) (oi offset0 : Nat) :
    removeSingle m oi offset0 0 =
      let blockN := ospfsBlock (oiIndirect m oi) + 4 * offset0
      let m₁ := fill (freeBlock m (load32 m blockN)) blockN 4 0
      shrink (setOiIndirect (freeBlock m₁ (oiIndirect m₁ oi)) oi 0) oi := rfl

/-- The places that `remove_block` empties while the file has an indirect block. -/
def Below (i : Nat) (p : Nat × Slot) : Prop := p.1 = i ∧ ∀ k, p.2 ≠ .direct k

/-- The indirect block of a file is removed. -/
structure Cut (g : Geometry) (own : Nat → Prop) (i : Nat) (m m' : Memory) : Prop where
  changes : ChangesOnly (reach g m own i) m m'
  indirect : oiIndirect m' (inodeAt i) = 0
  direct : ∀ k < 10, oiDirect m' (inodeAt i) k = oiDirect m (inodeAt i) k
  bits : ∀ c < g.nblocks, bitvectorTest m' freemap c = true →
    bitvectorTest m freemap c = true ∨ ∃ p, Below i p ∧ Owns m own p c

theorem removeBlock_cut (h : Stored lossless g m own) (hown : own i)
    (hn : 10 < blockCount m i) (hn' : blockCount m i ≤ 266) :
    ∃ m', removeBlock m (inodeAt i) = (none, m') ∧ Cut g own i m m' ∧
      oiSize m' (inodeAt i) + 1024 = oiSize m (inodeAt i) := by
  have hi := h.owners i hown
  have hdata := h.isData_indirect hown hn
  have hbelow := hdata.three_lt
  have hin : 3072 ≤ inodeAt i := Nat.le_add_right _ _
  have hfirst := inode_le_of_isData hdata hi
  have hlarge : 10240 < oiSize m (inodeAt i) := by
    unfold blockCount ospfsSize2nblocks at hn
    omega
  have hlt := load32_lt m (inodeAt i)
  set ind := oiIndirect m (inodeAt i) with hind
  set p := load32 m (ospfsBlock ind + 4 * (blockCount m i - 11)) with hp
  have huse : (Slot.single (blockCount m i - 11)).InUse (blockCount m i) :=
    ⟨by omega, by omega⟩
  have howns : p ≠ 0 → Owns m own (i, .single (blockCount m i - 11)) p := fun hpos =>
    ⟨hown, huse, rfl, .inl hpos⟩
  have hpdata : p = 0 ∨ g.IsData p := by
    by_cases hpos : p = 0
    · exact .inl hpos
    · exact .inr (h.safe.held_mem _ p (howns hpos))
  rw [removeBlock_of_single hn hn', removeSingle_eq]
  dsimp only
  rw [← hind, ← hp, hdata.block]
  set m₁ := freeBlock m p
  have h₁ : ChangesOnly (blockBytes 2) m m₁ := freeBlock_changesOnly h.fits hpdata
  set m₂ := fill m₁ (1024 * ind + 4 * (blockCount m i - 11)) 4 0
  have h₂ : ChangesOnly (blockBytes ind) m₁ m₂ := fill_changesOnly_sub (fun a ha => by
    simp only [blockBytes, Set.mem_Ico] at *
    omega) 0
  have hfield : ∀ n ≤ 60, load32 m₂ (inodeAt i + n) = load32 m (inodeAt i + n) :=
    fun n hn => (h₂.load32 fun d hd hmem => by
      simp only [blockBytes, Set.mem_Ico] at hmem
      omega).trans (h₁.load32 fun d hd hmem => by
        simp only [blockBytes, Set.mem_Ico] at hmem
        omega)
  have hind₂ : oiIndirect m₂ (inodeAt i) = ind := hfield 56 (by decide)
  have hfits₂ : g.Fits m₂ := by
    refine (h.fits.changesOnly h₁ ?_).changesOnly h₂ ?_
    all_goals exact fun a ha => not_mem_blockBytes_of_ne (by omega) ha
  rw [hind₂]
  set m₃ := freeBlock m₂ ind
  have h₃ : ChangesOnly (blockBytes 2) m₂ m₃ := freeBlock_changesOnly hfits₂ (.inr hdata)
  set m₄ := setOiIndirect m₃ (inodeAt i) 0
  have h₄ : ChangesOnly _ m₃ m₄ := store32_changesOnly m₃ _ _
  set m₅ := setOiSize m₄ (inodeAt i) ((oiSize m₄ (inodeAt i) + (2 ^ 32 - 1024)) % 2 ^ 32)
    with hm₅
  have h₅ : ChangesOnly _ m₄ m₅ := store32_changesOnly m₄ _ _
  have hfield₄ : ∀ n ≤ 52, load32 m₄ (inodeAt i + n) = load32 m (inodeAt i + n) :=
    fun n hn => ((h₄.load32 fun d hd hmem => by
      simp only [Set.mem_Ico] at hmem
      omega).trans (h₃.load32 fun d hd hmem => by
        simp only [blockBytes, Set.mem_Ico] at hmem
        omega)).trans (hfield n (by omega))
  refine ⟨m₅, rfl, ⟨?_, ?_, ?_, ?_⟩, ?_⟩
  · have hind' : blockBytes ind ⊆ reach g m own i := fun a ha =>
      .inr (.inr (.inr ⟨.indirect, ind, trivial, ⟨hown, hn, rfl, .inr trivial⟩, ha⟩))
    have hbitmap : blockBytes 2 ⊆ reach g m own i := fun a ha => .inr (.inl ha)
    refine ((((h₁.mono hbitmap).trans (h₂.mono hind')).trans (h₃.mono hbitmap)).trans
      (h₄.mono ?_)).trans (h₅.mono ?_)
    all_goals
      intro a ha
      refine .inl ?_
      simp only [pointerBytes, Set.mem_ofPred_eq, Set.mem_Ico] at *
      omega
  · refine (h₅.load32 fun d hd hmem => ?_).trans (load32_store32_same m₃ _ 0)
    simp only [Set.mem_Ico] at hmem
    omega
  · intro k hk
    have hload := hfield₄ (16 + 4 * k) (by omega)
    simp only [← Nat.add_assoc] at hload
    refine (h₅.load32 fun d hd hmem => ?_).trans hload
    simp only [Set.mem_Ico] at hmem
    omega
  · intro c hc hbit
    have hblocks := g.nblocks_le
    have hinode : ∀ a n, a ∈ Set.Ico (inodeAt i + n) (inodeAt i + n + 4) →
        a ∉ blockBytes 2 := fun a n ha => by
      simp only [blockBytes, Set.mem_Ico] at *
      omega
    rw [bitvectorTest_changesOnly h₅ (fun a => hinode a 0) (by omega),
      bitvectorTest_changesOnly h₄ (fun a => hinode a 56) (by omega)] at hbit
    rcases bitvectorTest_freeBlock hfits₂ (.inr hdata) hbit with hbit | ⟨rfl, -⟩
    · rw [bitvectorTest_changesOnly h₂ (fun a ha => not_mem_blockBytes_of_ne (by omega) ha)
        (by omega)] at hbit
      refine (bitvectorTest_freeBlock h.fits hpdata hbit).imp_right ?_
      rintro ⟨rfl, hpd⟩
      exact ⟨(i, .single _), ⟨rfl, fun _ heq => by cases heq⟩, howns (by have := hpd.three_lt; omega)⟩
    · exact .inr ⟨(i, .indirect), ⟨rfl, fun _ heq => by cases heq⟩, hown, hn, rfl, .inr trivial⟩
  · have hsize₄ : oiSize m₄ (inodeAt i) = oiSize m (inodeAt i) := hfield₄ 0 (by decide)
    change load32 m₅ (inodeAt i) + 1024 = _
    rw [hm₅, setOiSize, load32_store32_same, hsize₄]
    unfold oiSize at *
    omega

/-- Without an indirect block `remove_block` reads the boot sector. -/
theorem removeBlock_lost (hfits : g.Fits m) (hboot : ∀ a < 1024, m a = 0)
    (hindirect : oiIndirect m (inodeAt i) = 0) (hn : 10 < blockCount m i)
    (hn' : blockCount m i ≤ 266) :
    removeBlock m (inodeAt i) =
      (none, setOiSize m (inodeAt i) (oiSize m (inodeAt i) - 1024)) := by
  have hlarge : 10240 < oiSize m (inodeAt i) := by
    unfold blockCount ospfsSize2nblocks at hn
    omega
  have hlt : oiSize m (inodeAt i) < 2 ^ 32 := load32_lt m _
  have hload : load32 m (ospfsBlock 0 + 4 * (blockCount m i - 11)) = 0 :=
    load32_eq_zero fun d hd => hboot _ (by simp only [ospfsBlock]; omega)
  have hfill : fill m (ospfsBlock 0 + 4 * (blockCount m i - 11)) 4 0 = m := by
    funext a
    unfold fill
    split_ifs with ha
    · exact (hboot a (by simp only [ospfsBlock] at ha; omega)).symm
    · rfl
  have hself : setOiIndirect m (inodeAt i) 0 = m := by
    have hstore := store32_load32 m (inodeAt i + 56)
    unfold oiIndirect at hindirect
    rwa [hindirect] at hstore
  rw [removeBlock_of_single hn hn', removeSingle_eq]
  have hsub : (oiSize m (inodeAt i) + (2 ^ 32 - 1024)) % 2 ^ 32 =
      oiSize m (inodeAt i) - 1024 := by omega
  simp only [hindirect, hload, freeBlock_zero hfits, hfill, hself, shrink, hsub]

theorem Cut.setOiSize (hcut : Cut g own i m m') (v : Nat) :
    Cut g own i m (setOiSize m' (inodeAt i) v) := by
  have hchanges : ChangesOnly _ m' (Ospfs.setOiSize m' (inodeAt i) v) :=
    store32_changesOnly m' _ _
  refine ⟨hcut.changes.trans (hchanges.mono fun a ha => .inl (.inl (Set.mem_Ico.1 ha))), ?_, ?_,
    ?_⟩
  · exact (load32_store32_of_disjoint (by omega)).trans hcut.indirect
  · exact fun k hk => (load32_store32_of_disjoint (by omega)).trans (hcut.direct k hk)
  · intro c hc hbit
    have hblocks := g.nblocks_le
    refine hcut.bits c hc ?_
    rwa [bitvectorTest_changesOnly hchanges (fun a ha => ?_) (by omega)] at hbit
    simp only [blockBytes, inodeAt, Set.mem_Ico] at *
    omega

theorem shrinkLoop_succ {newSize rounds : Nat} {r : Option Errno}
    (hlt : ospfsSize2nblocks newSize < blockCount m i)
    (hremove : removeBlock m (inodeAt i) = (none, m')) :
    shrinkLoop (inodeAt i) newSize (rounds + 1) r m =
      shrinkLoop (inodeAt i) newSize rounds none m' := by
  rw [shrinkLoop, ← blockCount_eq, if_pos hlt, hremove]

/-- The blocks above the direct ones go one by one. -/
theorem shrinkLoop_lost (h : Stored lossless g m own) (rounds k : Nat) (r : Option Errno)
    (hcut : Cut g own i m m') (hk : blockCount m' i = 10 + k) (hle : 10 + k ≤ 266) :
    ∃ r' m'', shrinkLoop (inodeAt i) 0 (k + rounds) r m' =
        shrinkLoop (inodeAt i) 0 rounds r' m'' ∧
      Cut g own i m m'' ∧ blockCount m'' i = 10 := by
  induction k generalizing m' r with
  | zero => exact ⟨r, m', by rw [Nat.zero_add], hcut, hk⟩
  | succ k ih =>
      have hlow : ∀ a ∈ reach g m own i, 2048 ≤ a := fun a ha => h.le_of_reach ha
      have hfits : g.Fits m' := h.fits.changesOnly hcut.changes fun a ha => by
        have ha' := hlow a ha
        simp only [blockBytes, Set.mem_Ico]
        omega
      have hboot : ∀ a < 1024, m' a = 0 := fun a ha => by
        rw [hcut.changes a fun hmem => by have := hlow a hmem; omega]
        exact h.boot a ha
      have hsize : oiSize m' (inodeAt i) < 2 ^ 32 := load32_lt m' _
      have hsize' : oiSize (Ospfs.setOiSize m' (inodeAt i) (oiSize m' (inodeAt i) - 1024))
          (inodeAt i) = oiSize m' (inodeAt i) - 1024 :=
        (load32_store32_same m' _ _).trans (Nat.mod_eq_of_lt (by omega))
      have hcount : blockCount (Ospfs.setOiSize m' (inodeAt i) (oiSize m' (inodeAt i) - 1024))
          i = 10 + k := by
        rw [blockCount_of_size hsize']
        unfold blockCount ospfsSize2nblocks at *
        omega
      have hpos : ospfsSize2nblocks 0 < blockCount m' i := hk ▸ Nat.zero_lt_succ _
      rw [show k + 1 + rounds = (k + rounds) + 1 by omega, shrinkLoop_succ hpos
        (removeBlock_lost hfits hboot hcut.indirect (by omega) (by omega))]
      exact ih none (hcut.setOiSize _) hcount (by omega)

/-- The direct blocks are left. -/
theorem Cut.stored (h : Stored False g m own) (hown : own i) (hcut : Cut g own i m m')
    (hn : 10 < blockCount m i) (hten : blockCount m' i = 10) : Stored False g m' own := by
  have hi := h.owners i hown
  have hfile := h.file i hown
  have hftype : oiFtype m' (inodeAt i) = oiFtype m (inodeAt i) :=
    h.field_of_reach hi hcut.changes (by decide) (by decide)
  have hdirect : ∀ k < 10, oiDirect m' (inodeAt i) k ≠ 0 := fun k hk => by
    rw [hcut.direct k hk]
    exact hfile.direct k hk (by omega)
  refine h.of_reach hown hcut.changes ?_ False.elim ⟨hftype ▸ hfile.ftype, ?_,
    fun k hk _ => hdirect k hk, fun _ => hcut.indirect, fun _ => ?_, False.elim⟩
  · refine h.safe.release (Below i) ?_ ?_
    · rintro ⟨j, s⟩ c hc
      by_cases hji : j = i
      · subst hji
        obtain ⟨hown, hpos, k, hk, rfl, htarget⟩ := (owns_iff_of_le hten.le s c).1 hc
        rw [hcut.direct k (by omega)] at htarget
        have huse : (Slot.direct k).InUse (blockCount m j) := ⟨by omega, by omega⟩
        exact ⟨⟨hown, huse, htarget, .inl hpos⟩, fun hbelow => hbelow.2 k rfl⟩
      · exact ⟨(Spares.owns_iff h.safe hcut.changes
          (fun hj => h.spares_of_reach hi hj hji) s c).1 hc, fun hbelow => hji hbelow.1⟩
    · rintro c ⟨hc, hbit⟩
      exact (hcut.bits c hc hbit).imp (fun hbit => ⟨hc, hbit⟩) id
  · have hcount := hten
    unfold blockCount ospfsSize2nblocks at hcount
    have hlt : oiSize m' (inodeAt i) < 2 ^ 32 := load32_lt m' _
    unfold Slot.maxfileblks
    omega
  · exact (filled_iff_of_le hten.le).2 fun k hk => hdirect k (by omega)

/-- The last link of a file with at most 266 blocks can be removed. -/
theorem releasable_of_single (h : Stored False g m own) (hown : own i)
    (hsize : oiSize m (inodeAt i) ≤ 266 * 1024) : Releasable False g own m i := by
  by_cases hten : oiSize m (inodeAt i) ≤ 10240
  · exact releasable_of_direct h hown hten
  · have hn : 10 < blockCount m i := by
      unfold blockCount ospfsSize2nblocks
      omega
    have hn' : blockCount m i ≤ 266 := by
      unfold blockCount ospfsSize2nblocks
      omega
    obtain ⟨m₁, hremove, hcut, hsize₁⟩ := removeBlock_cut h hown hn hn'
    have hcount : blockCount m₁ i = 10 + (blockCount m i - 11) := by
      unfold blockCount ospfsSize2nblocks at *
      omega
    obtain ⟨r, m₂, hloop, hcut₂, hcount₂⟩ := shrinkLoop_lost h
      (maxRounds - 1 - (blockCount m i - 11)) (blockCount m i - 11) none hcut hcount (by omega)
    have hshrink : shrinkLoop (inodeAt i) 0 maxRounds none m =
        shrinkLoop (inodeAt i) 0 (maxRounds - 1 - (blockCount m i - 11)) r m₂ := by
      have hpos : ospfsSize2nblocks 0 < blockCount m i := Nat.zero_lt_of_lt hn
      have hrounds : (blockCount m i - 11) + (maxRounds - 1 - (blockCount m i - 11)) + 1 =
          maxRounds := by
        unfold maxRounds
        omega
      rw [← hloop, ← shrinkLoop_succ hpos hremove, hrounds]
    have h₂ := hcut₂.stored h hown hn hcount₂
    have hsize₂ : oiSize m₂ (inodeAt i) ≤ 10240 := by
      have hlt : oiSize m₂ (inodeAt i) < 2 ^ 32 := load32_lt m₂ _
      unfold blockCount ospfsSize2nblocks at hcount₂
      omega
    have hfilled₂ : Filled m₂ i := (filled_iff_of_le hcount₂.le).2 fun k hk =>
      (h₂.file i hown).direct k (by omega) hk
    obtain ⟨r', c, m₃, hloop₃, hshrinks, hresult⟩ := shrinkLoop_spec 0 hown h.owners
      (maxRounds - 1 - (blockCount m i - 11)) r h₂.fits h₂.safe hfilled₂ (fun _ => hsize₂) (by
        unfold maxRounds
        omega)
    have hzero : blockCount m₃ i = ospfsSize2nblocks 0 := by
      have hnone : ospfsSize2nblocks 0 = 0 := rfl
      rcases hresult with ⟨-, -, hle⟩ | ⟨-, -, heq⟩
      · omega
      · exact heq
    have hsafe₃ := h₂.safe.moves hshrinks.moves
    obtain ⟨hset, hsize₄⟩ :=
      setOiSize_shrinks hown h.owners hshrinks.fits hsafe₃ (Nat.zero_le _) hzero
    have hall := hshrinks.trans hown h.owners hsafe₃ hset
    have hresized : Resized False g own i m₂ _ :=
      hall.toResizes.resized h₂ hown hsize₂ (hsize₄.trans_le (Nat.zero_le _))
    unfold Releasable
    rw [changeSize_zero, hshrink, hloop₃]
    refine ⟨hresized.stored.drop hsize₄, hcut₂.changes.trans (hall.only.mono ?_), hsize₄⟩
    exact fun a ha => subset_reach (.inl ha)

end Cs111Labs.Ospfs
