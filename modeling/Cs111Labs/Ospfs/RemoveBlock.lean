import Cs111Labs.Ospfs.AddBlock

/-!
# Removing a block

Where the indices of `remove_block` are right and it frees the indirect blocks
that are empty, the slots of the last block are taken out of the tree of the
file.
-/

namespace Cs111Labs.Ospfs

open Foundation Memory

variable {g : Geometry} {m m' m₀ : Memory} {own : Nat → Prop} {a b c i n : Nat}
  {U : Slot → Prop} {s t : Slot}

/-! ## The branches of `remove_block` -/

theorem fill_four (m : Memory) (a : Nat) : fill m a 4 0 = store32 m a 0 := by
  funext x
  unfold fill store32
  rw [Nat.zero_div]
  rfl

theorem removeDirect_unlink {oi : Nat} (hpos : oiDirect m oi n ≠ 0) :
    removeDirect m oi n = shrink (unlink m (oi + (16 + 4 * n))) oi := by
  unfold removeDirect
  rw [if_neg hpos, unlink, ← Nat.add_assoc]
  rfl

theorem removeSingle_unlink (m : Memory) (oi n : Nat) :
    removeSingle m oi n 0 = shrink
      (unlink (unlink m (ospfsBlock (oiIndirect m oi) + 4 * n)) (oi + 56)) oi := by
  rw [removeSingle_eq]
  dsimp only
  rw [fill_four]
  rfl

theorem removeDouble_unlink {oi offset0 offset1 : Nat}
    (houter : (Slot.outer offset1).target m oi ≠ 0)
    (hdouble : (Slot.double offset1 offset0).target m oi ≠ 0) (hoffset : offset0 ≠ 0) :
    removeDouble m oi offset0 offset1 =
      shrink (unlink m (ospfsBlock ((Slot.outer offset1).target m oi) + 4 * offset0)) oi := by
  unfold removeDouble
  unfold Slot.target at *
  dsimp only
  rw [if_neg houter, if_neg hdouble, if_neg hoffset, fill_four]
  rfl

theorem removeOuter_unlink {oi offset1 : Nat} (houter : (Slot.outer offset1).target m oi ≠ 0)
    (hdouble : (Slot.double offset1 0).target m oi ≠ 0) (hoffset : offset1 ≠ 0) :
    removeDouble m oi 0 offset1 = shrink (unlink
      (unlink m (ospfsBlock ((Slot.outer offset1).target m oi) + 4 * 0))
      (ospfsBlock (oiIndirect2 m oi) + 4 * offset1)) oi := by
  unfold removeDouble
  unfold Slot.target at *
  dsimp only
  rw [if_neg houter, if_neg hdouble, if_pos rfl, if_neg hoffset, fill_four, fill_four]
  rfl

/-! ## One block less -/

section Remove

variable {hi : i < g.ninodes}

/-- The slots that `remove_block` empties. -/
def dropped (n : Nat) (s : Slot) : Prop := s.InUse (n + 1) ∧ ¬ s.InUse n

/-- A block is removed. -/
structure Reduced (hi : i < g.ninodes) (own : Nat → Prop) (m₀ : Memory) (n : Nat)
    (m m' : Memory) : Prop where
  reshaped : Reshaped hi own m₀ (·.InUse n) m'
  size : oiSize m' (inodeAt i) = (oiSize m (inodeAt i) + (2 ^ 32 - 1024)) % 2 ^ 32
  changes : ChangesOnly {a | a ∈ blockBytes 2 ∨ a ∈ Set.Ico (inodeAt i) (inodeAt i + 4) ∨
    ∃ s, dropped n s ∧ a ∈ (fileTree g i hi).word m s} m m'
  zero : ∀ s, dropped n s → load32 m' ((fileTree g i hi).cell m s) = 0

/-- The size is set when the slots of the block are empty. -/
theorem Reshaped.reduced (h : Reshaped hi own m₀ U m') (hm : Reshaped hi own m₀ (·.InUse (n + 1)) m)
    (hslots : ∀ t, U t ↔ t.InUse n)
    (hsize : oiSize m' (inodeAt i) = oiSize m (inodeAt i))
    (hchanges : ChangesOnly (blockBytes 2 ∪ {a | ∃ s, dropped n s ∧
      a ∈ (fileTree g i hi).word m s}) m m')
    (hzero : ∀ s, dropped n s → load32 m' ((fileTree g i hi).cell m s) = 0) :
    ∃ m₁, shrink m' (inodeAt i) = (none, m₁) ∧ Reduced hi own m₀ n m m₁ := by
  have hstore := store32_changesOnly m' (inodeAt i)
    ((oiSize m' (inodeAt i) + (2 ^ 32 - 1024)) % 2 ^ 32)
  refine ⟨_, rfl, (h.setOiSize _).congr hslots, ?_, (hchanges.mono ?_).trans (hstore.mono ?_), ?_⟩
  · rw [← hsize]
    exact (load32_store32_same m' _ _).trans (Nat.mod_mod _ _)
  · rintro x (hbitmap | hword)
    · exact .inl hbitmap
    · exact .inr (.inr hword)
  · exact fun x hx => .inr (.inl hx)
  · intro s hs
    refine (hstore.load32 fun d hd hmem => ?_).trans (hzero s hs)
    refine FileTree.word_field hm.spans (hm.spans.inPlace s hs.1)
      (Set.mem_Ico.2 ⟨Nat.le_add_right _ d, by omega⟩) ?_
    simp only [Set.mem_Ico] at *
    omega

/-- One slot is emptied. -/
theorem Reshaped.dropOne (h : Reshaped hi own m₀ (·.InUse (n + 1)) m)
    (h₀ : WellFormed g m₀ own i) (hs : s.InUse (n + 1)) (hunused : ¬ s.InUse n)
    (hleaf : ∀ t : Slot, t.InUse (n + 1) → t.parent ≠ some s)
    (hslots : ∀ t : Slot, t.InUse (n + 1) → t.InUse n ∨ t = s) :
    ∃ m', shrink (Ospfs.unlink m ((fileTree g i hi).cell m s)) (inodeAt i) = (none, m') ∧
      Reduced hi own m₀ n m m' := by
  refine (h.unlink h₀ hs hleaf).reduced h (fun t => ?_) (h.unlink_size h₀ hs)
    ((h.unlink_changesOnly h₀ hs).mono (Set.union_subset_union_right _ fun x hx => ?_))
    (fun t ht => ?_)
  · constructor
    · exact fun ht => (hslots t ht.1).resolve_right ht.2
    · refine fun ht => ⟨ht.mono (Nat.le_succ n), ?_⟩
      rintro rfl
      exact hunused ht
  · exact ⟨s, ⟨hs, hunused⟩, hx⟩
  · rw [(hslots t ht.1).resolve_left ht.2]
    exact load32_unlink m _

/-- A slot and the one above are emptied. -/
theorem Reshaped.dropTwo (h : Reshaped hi own m₀ (·.InUse (n + 1)) m)
    (h₀ : WellFormed g m₀ own i) {p : Slot} (hs : s.InUse (n + 1)) (hp : p.InUse (n + 1))
    (hunused : ¬ s.InUse n) (hunused' : ¬ p.InUse n) (hne : p ≠ s)
    (hleaf : ∀ t : Slot, t.InUse (n + 1) → t.parent ≠ some s)
    (hleaf' : ∀ t : Slot, t.InUse (n + 1) → t.parent = some p → t = s)
    (hslots : ∀ t : Slot, t.InUse (n + 1) → t.InUse n ∨ t = s ∨ t = p) :
    ∃ m', shrink (Ospfs.unlink (Ospfs.unlink m ((fileTree g i hi).cell m s))
        ((fileTree g i hi).cell m p)) (inodeAt i) = (none, m') ∧
      Reduced hi own m₀ n m m' := by
  have hplace := h.spans.inPlace s hs
  have hplace' := h.spans.inPlace p hp
  have h₁ := h.unlink h₀ hs hleaf
  have hcell : (fileTree g i hi).cell (Ospfs.unlink m ((fileTree g i hi).cell m s)) p =
      (fileTree g i hi).cell m p := by
    refine PointerTree.cell_congr fun q hparent => h.target_unlink h₀ hs hleaf ?_
    refine ⟨hplace'.2 q hparent, ?_⟩
    rintro rfl
    exact hleaf p hp hparent
  have h₂ := h₁.unlink h₀ ⟨hp, hne⟩ fun t ht hparent => ht.2 (hleaf' t ht.1 hparent)
  have hchanges₂ := h₁.unlink_changesOnly h₀ ⟨hp, hne⟩
  have hsize := h₁.unlink_size h₀ ⟨hp, hne⟩
  simp only [PointerTree.word, hcell] at h₂ hchanges₂ hsize
  refine h₂.reduced h (fun t => ?_) (hsize.trans (h.unlink_size h₀ hs))
    (((h.unlink_changesOnly h₀ hs).mono (Set.union_subset_union_right _ fun x hx => ?_)).trans
      (hchanges₂.mono (Set.union_subset_union_right _ fun x hx => ?_))) (fun t ht => ?_)
  · constructor
    · rintro ⟨⟨ht, hts⟩, htp⟩
      exact (hslots t ht).resolve_right fun heq => heq.elim hts htp
    · refine fun ht => ⟨⟨ht.mono (Nat.le_succ n), ?_⟩, ?_⟩
      · rintro rfl
        exact hunused ht
      · rintro rfl
        exact hunused' ht
  · exact ⟨s, ⟨hs, hunused⟩, hx⟩
  · exact ⟨p, ⟨hp, hunused'⟩, hx⟩
  · rcases (hslots t ht.1).resolve_left ht.2 with rfl | rfl
    · rw [hchanges₂.load32 fun d hd hmem => ?_]
      · exact load32_unlink m _
      · exact h.unlink_beside hplace' hplace (Ne.symm hne) _ hmem
          (Set.mem_Ico.2 ⟨by omega, by omega⟩)
    · exact load32_unlink _ _

theorem Reshaped.removeDirect (h : Reshaped hi own m₀ (·.InUse (n + 1)) m)
    (h₀ : WellFormed g m₀ own i) (hcount : blockCount m i = n + 1) (hn : n < 10) :
    ∃ m', removeBlock m (inodeAt i) = (none, m') ∧ Reduced hi own m₀ n m m' := by
  have huse : (Slot.direct n).InUse (n + 1) := ⟨hn, Nat.lt_succ_self n⟩
  have hpos : oiDirect m (inodeAt i) n ≠ 0 := by
    have hdata : g.IsData (oiDirect m (inodeAt i) n) := h.isData huse
    have hthree := hdata.three_lt
    omega
  have hslots : ∀ t : Slot, t.InUse (n + 1) → t.InUse n ∨ t = .direct n := fun t ht => by
    rwa [Slot.inUse_succ (hn.trans (by decide)), Slot.path, if_pos hn, List.mem_singleton] at ht
  obtain ⟨m', hshrink, hreduced⟩ := h.dropOne h₀ huse (fun hlt => Nat.lt_irrefl n hlt.2)
    (fun t _ heq => by cases t <;> cases heq) hslots
  refine ⟨m', ?_, hreduced⟩
  rw [removeBlock_of_le (by omega) (by omega), hcount, ← hshrink]
  exact removeDirect_unlink hpos

theorem Reshaped.removeIndirect (h : Reshaped hi own m₀ (·.InUse (10 + 1)) m)
    (h₀ : WellFormed g m₀ own i) (hcount : blockCount m i = 11) :
    ∃ m', removeBlock m (inodeAt i) = (none, m') ∧ Reduced hi own m₀ 10 m m' := by
  have hslots : ∀ t : Slot, t.InUse (10 + 1) → t.InUse 10 ∨ t = .single 0 ∨ t = .indirect :=
    fun t ht => by
      rw [Slot.inUse_succ (n := 10) (by decide) t] at ht
      simpa [Slot.path, or_comm] using ht
  have hleaf : ∀ t : Slot, t.InUse (10 + 1) → t.parent = some .indirect → t = .single 0 :=
    fun t ht hparent => by
      rcases hslots t ht with ht | rfl | rfl
      · exact absurd (ht.parent hparent) (Nat.lt_irrefl 10)
      · rfl
      · cases hparent
  obtain ⟨m', hshrink, hreduced⟩ := h.dropTwo h₀ (s := .single 0) (p := .indirect)
    ⟨by decide, by decide⟩ (by exact Nat.lt_succ_self 10) (fun hlt => absurd hlt.2 (by decide))
    (Nat.lt_irrefl 10) (fun heq => by cases heq) (fun t _ heq => by cases t <;> cases heq) hleaf hslots
  refine ⟨m', ?_, hreduced⟩
  rw [removeBlock_of_single (by omega) (by omega), hcount, ← hshrink]
  exact removeSingle_unlink m (inodeAt i) 0

theorem removeBlock_of_double (hcount : blockCount m i = n + 1) (hn : 522 ≤ n) :
    removeBlock m (inodeAt i) =
      removeDouble m (inodeAt i) ((n - 266) % 256) ((n - 266) / 256) := by
  have hindir2 : indir2Index n = 0 := if_neg (by omega)
  have hindir : indirIndex n = ((n - 266) / 256 : Nat) := by
    unfold indirIndex
    rw [if_neg (by omega), if_pos hindir2, Nat.sub_sub]
  have hdirect : directIndex n = (n - 266) % 256 := by
    unfold directIndex
    rw [hindir, if_neg (by omega), if_neg (by omega), Nat.sub_sub]
  simp only [removeBlock, ← blockCount_eq, hcount, Nat.add_sub_cancel, hindir, hdirect,
    Int.toNat_natCast]
  rw [if_neg (by omega), if_neg (by omega), if_neg (by omega)]

theorem Reshaped.removeDouble (h : Reshaped hi own m₀ (·.InUse (n + 1)) m)
    (h₀ : WellFormed g m₀ own i) (hcount : blockCount m i = n + 1) (hn : 522 ≤ n)
    (hn' : n < Slot.maxfileblks) :
    ∃ m', removeBlock m (inodeAt i) = (none, m') ∧ Reduced hi own m₀ n m m' := by
  have hmax := hn'
  unfold Slot.maxfileblks at hmax
  have hindirect2 : Slot.indirect2.InUse n := by
    simp only [Slot.InUse]
    omega
  have huse : (Slot.double ((n - 266) / 256) ((n - 266) % 256)).InUse (n + 1) :=
    ⟨by omega, Nat.mod_lt _ (by decide), by omega⟩
  have hunused : ¬ (Slot.double ((n - 266) / 256) ((n - 266) % 256)).InUse n := fun hlt => by
    have hlast := hlt.2.2
    omega
  have houter : (Slot.outer ((n - 266) / 256)).InUse (n + 1) := huse.parent rfl
  have hpos : ∀ s : Slot, s.InUse (n + 1) → s.target m (inodeAt i) ≠ 0 := fun s hs => by
    have hthree := (h.isData hs).three_lt
    omega
  have hslots : ∀ t : Slot, t.InUse (n + 1) → t.InUse n ∨
      t = .double ((n - 266) / 256) ((n - 266) % 256) ∨ t = .outer ((n - 266) / 256) :=
    fun t ht => by
      rw [Slot.inUse_succ hn', Slot.path, if_neg (by omega), if_neg (by omega),
        List.mem_cons, List.mem_cons, List.mem_singleton] at ht
      rcases ht with ht | rfl | heq | heq
      · exact .inl ht
      · exact .inl hindirect2
      · exact .inr (.inr heq)
      · exact .inr (.inl heq)
  have hleaf : ∀ t : Slot, t.InUse (n + 1) →
      t.parent ≠ some (.double ((n - 266) / 256) ((n - 266) % 256)) := fun t _ heq => by
    cases t <;> cases heq
  rw [removeBlock_of_double hcount hn]
  by_cases hoffset : (n - 266) % 256 = 0
  · have hunused' : ¬ (Slot.outer ((n - 266) / 256)).InUse n := fun hlt => by
      have hlast := hlt.2
      omega
    have hleaf' : ∀ t : Slot, t.InUse (n + 1) → t.parent = some (.outer ((n - 266) / 256)) →
        t = .double ((n - 266) / 256) ((n - 266) % 256) := fun t ht hparent => by
      rcases hslots t ht with ht | heq | rfl
      · exact absurd (ht.parent hparent) hunused'
      · exact heq
      · cases hparent
    have hne : Slot.outer ((n - 266) / 256) ≠ .double ((n - 266) / 256) ((n - 266) % 256) :=
      fun heq => by cases heq
    obtain ⟨m', hshrink, hreduced⟩ := h.dropTwo h₀ huse houter hunused hunused' hne hleaf
      hleaf' hslots
    refine ⟨m', ?_, hreduced⟩
    have hdouble := hpos _ huse
    rw [hoffset] at hdouble hshrink ⊢
    rw [removeOuter_unlink (hpos _ houter) hdouble (by omega), ← hshrink]
    rfl
  · have houter' : (Slot.outer ((n - 266) / 256)).InUse n := ⟨houter.1, by omega⟩
    have hslots' : ∀ t : Slot, t.InUse (n + 1) →
        t.InUse n ∨ t = .double ((n - 266) / 256) ((n - 266) % 256) := fun t ht => by
      rcases hslots t ht with ht | heq | rfl
      · exact .inl ht
      · exact .inr heq
      · exact .inl houter'
    obtain ⟨m', hshrink, hreduced⟩ := h.dropOne h₀ huse hunused hleaf hslots'
    refine ⟨m', ?_, hreduced⟩
    rw [removeDouble_unlink (hpos _ houter) (hpos _ huse) hoffset, ← hshrink, cell_double]

/-- The last block of a file is removed. -/
theorem Reshaped.removeBlock (h : Reshaped hi own m₀ (·.InUse (n + 1)) m)
    (h₀ : WellFormed g m₀ own i) (hcount : blockCount m i = n + 1)
    (hn : n + 1 ≤ 11 ∨ 523 ≤ n + 1) :
    ∃ m', removeBlock m (inodeAt i) = (none, m') ∧ Reduced hi own m₀ n m m' := by
  have hlimit := h.le_nblocks
  have hmax : n < Slot.maxfileblks := Nat.lt_of_le_of_lt (Nat.le_of_succ_le hlimit) (by decide)
  rcases hn with hle | hge
  · rcases Nat.lt_or_eq_of_le (Nat.le_of_succ_le_succ hle) with hlt | rfl
    · exact h.removeDirect h₀ hcount hlt
    · exact h.removeIndirect h₀ hcount
  · exact h.removeDouble h₀ hcount (by omega) hmax

end Remove

/-! ## Shrinking by one block -/

/-- A file loses its last block, and the indirect blocks that are empty then. -/
structure Shrunk (g : Geometry) (i : Nat) (m m' : Memory) : Prop where
  count : blockCount m' i + 1 = blockCount m i
  freed : ∀ c < g.nblocks, bitvectorTest m' freemap c = true ↔
    bitvectorTest m freemap c = true ∨ c = fileBlock m i (blockCount m i - 1) ∨
      ∃ s : Slot, s.IsMeta ∧ s.InUse (blockCount m i) ∧ s.target m (inodeAt i) = c ∧
        ∀ k < 256, load32 m' (1024 * c + 4 * k) = 0
  zero : ∀ s : Slot, s.InUse (blockCount m i) →
    bitvectorTest m' freemap (s.target m (inodeAt i)) = true →
      load32 m' (s.address m (inodeAt i)) = 0
  kept : ∀ k, k + 1 < blockCount m i → fileBlock m' i k = fileBlock m i k ∧
    bitvectorTest m' freemap (fileBlock m i k) = false

namespace Slot

/-- The slots whose words are in the block of this one. -/
def child (k : Nat) : Slot → Slot
  | indirect => single k
  | indirect2 => outer k
  | outer l => double l k
  | s => s

theorem parent_child {s : Slot} (hs : s.IsMeta) (k : Nat) : (s.child k).parent = some s := by
  cases s with
  | indirect | indirect2 | outer l => rfl
  | direct k | single k | double l k => exact hs.elim

theorem index_child {s : Slot} (hs : s.IsMeta) (k : Nat) : (s.child k).index = 4 * k := by
  cases s with
  | indirect | indirect2 | outer l => rfl
  | direct k | single k | double l k => exact hs.elim

theorem valid_child {s : Slot} {k : Nat} (hs : s.Valid) (hmeta : s.IsMeta) (hk : k < 256) :
    (s.child k).Valid := by
  cases s with
  | indirect | indirect2 => exact hk
  | outer l => exact ⟨hs, hk⟩
  | direct k | single k | double l k => exact hmeta.elim

theorem inUse_child {s : Slot} (hs : s.InUse n) (hmeta : s.IsMeta) : (s.child 0).InUse n := by
  cases s with
  | indirect => exact ⟨by decide, hs⟩
  | indirect2 => exact ⟨by decide, hs⟩
  | outer l => exact ⟨hs.1, by decide, hs.2⟩
  | direct k | single k | double l k => exact hmeta.elim

end Slot

/-- Of the data blocks only the last one goes. -/
theorem dropped_cases (hn : n < Slot.maxfileblks) (h : dropped n s) :
    s = Slot.ofIndex n ∨ s.IsMeta := by
  have hpath := ((Slot.inUse_succ hn s).1 h.1).resolve_left h.2
  unfold Slot.path at hpath
  unfold Slot.ofIndex
  split_ifs at hpath ⊢ <;> simp only [List.mem_cons, List.not_mem_nil, or_false] at hpath
  · exact .inl hpath
  · rcases hpath with rfl | rfl
    · exact .inr trivial
    · exact .inl rfl
  · rcases hpath with rfl | rfl | rfl
    · exact .inr trivial
    · exact .inr trivial
    · exact .inl rfl

theorem dropped_ofIndex (hn : n < Slot.maxfileblks) : dropped n (Slot.ofIndex n) := by
  refine ⟨Slot.ofIndex_inUse (Nat.lt_succ_self n) hn, ?_⟩
  unfold Slot.ofIndex
  split_ifs <;> simp only [Slot.InUse] <;> omega

theorem ospfsSize2nblocks_pred {size : Nat} (h : size ≤ 1024 * Slot.maxfileblks)
    (hpos : 0 < ospfsSize2nblocks size) :
    ospfsSize2nblocks ((size + (2 ^ 32 - 1024)) % 2 ^ 32) + 1 = ospfsSize2nblocks size := by
  unfold Slot.maxfileblks at h
  unfold ospfsSize2nblocks at *
  omega

section Shrink

/-- The words of a block that is given back are 0. -/
theorem Reduced.empty (h : WellFormed g m own i) (hr : Reduced h.lt own m n m m')
    (hcount : blockCount m i = n + 1) (hs : dropped n s) (hmeta : s.IsMeta) {k : Nat}
    (hk : k < 256) : load32 m' (1024 * s.target m (inodeAt i) + 4 * k) = 0 := by
  have hm : Reshaped h.lt own m (·.InUse (n + 1)) m := hcount ▸ Reshaped.refl h
  have hdata := hm.isData hs.1
  have hcell : (fileTree g i h.lt).cell m (s.child k) =
      1024 * s.target m (inodeAt i) + 4 * k := by
    rw [← hdata.block, ← Slot.index_child hmeta k]
    exact PointerTree.cell_of_some (Slot.parent_child hmeta k)
  have hplace : (fileTree g i h.lt).InPlace (·.InUse (n + 1)) (s.child k) := by
    refine ⟨Slot.valid_child hs.1.valid hmeta hk, fun p hparent => ?_⟩
    have hsp := (Slot.parent_child hmeta k).symm.trans hparent
    exact Option.some.inj hsp ▸ hs.1
  rw [← hcell]
  by_cases huse : (s.child k).InUse (n + 1)
  · exact hr.zero _ ⟨huse, fun hin => hs.2 (hin.parent (Slot.parent_child hmeta k))⟩
  · rw [hr.changes.load32 fun d hd hmem => ?_, Reshaped.load32_cell]
    · exact hm.tidy _ hplace huse
    · have hword : (fileTree g i h.lt).cell m (s.child k) + d ∈
          (fileTree g i h.lt).word m (s.child k) := Set.mem_Ico.2 ⟨by omega, by omega⟩
      rcases hmem with hbitmap | hfield | ⟨t, ht, hmem⟩
      · exact FileTree.word_bitmap hm.spans hplace hword hbitmap
      · refine FileTree.word_field hm.spans hplace hword ?_
        simp only [Set.mem_Ico] at *
        omega
      · refine hm.spans.word_apart hplace (hm.spans.inPlace t ht.1) ?_ hword hmem
        rintro rfl
        exact huse ht.1

theorem Reduced.shrunk (h : WellFormed g m own i) (hr : Reduced h.lt own m n m m')
    (hcount : blockCount m i = n + 1) : Shrunk g i m m' := by
  have hm : Reshaped h.lt own m (·.InUse (n + 1)) m := hcount ▸ Reshaped.refl h
  have hmax : n < Slot.maxfileblks :=
    Nat.lt_of_le_of_lt (Nat.le_of_succ_le hm.le_nblocks) (by decide)
  have hfile := h.stored.file i h.owner
  have hcount' : blockCount m' i + 1 = blockCount m i := by
    unfold blockCount
    rw [hr.size]
    have hpos : 0 < blockCount m i := hcount ▸ Nat.succ_pos n
    exact ospfsSize2nblocks_pred hfile.size_le hpos
  have hsame : ∀ s : Slot, s.InUse n → s.target m' (inodeAt i) = s.target m (inodeAt i) :=
    fun s hs => hr.reshaped.kept s hs (hcount.symm ▸ hs.mono (Nat.le_succ n))
  have hblock : ∀ k < n + 1, fileBlock m i k = (Slot.ofIndex k).target m (inodeAt i) :=
    fun k hk => fileBlock_eq hfile.ftype (mul_lt_of_lt_blockCount (hcount.symm ▸ hk))
  have hfree : ∀ c < g.nblocks, bitvectorTest m' freemap c = true ↔
      (bitvectorTest m freemap c = true ∨
        ∃ s : Slot, s.InUse (n + 1) ∧ s.target m (inodeAt i) = c) ∧
      ∀ s : Slot, s.InUse n → s.target m (inodeAt i) ≠ c := fun c hc => by
    rw [hr.reshaped.free_iff c hc, hcount]
    refine and_congr_right fun _ => forall_congr' fun s => forall_congr' fun hs => ?_
    rw [hsame s hs]
  have hlast : (Slot.ofIndex n).InUse (n + 1) := (dropped_ofIndex hmax).1
  refine ⟨hcount', fun c hc => ?_, fun s hs hbit => ?_, fun k hk => ⟨?_, ?_⟩⟩
  · rw [hfree c hc, hcount, Nat.add_sub_cancel, hblock n (Nat.lt_succ_self n)]
    constructor
    · rintro ⟨hbit | ⟨s, hs, rfl⟩, hother⟩
      · exact .inl hbit
      · have hdrop : dropped n s := ⟨hs, fun hin => hother s hin rfl⟩
        rcases dropped_cases hmax hdrop with rfl | hmeta
        · exact .inr (.inl rfl)
        · exact .inr (.inr ⟨s, hmeta, hs, rfl, fun k hk => hr.empty h hcount hdrop hmeta hk⟩)
    · rintro (hbit | rfl | ⟨s, hmeta, hs, rfl, hempty⟩)
      · refine ⟨.inl hbit, fun s hs => ?_⟩
        exact ((hm.free_iff c hc).1 hbit).2 s (hs.mono (Nat.le_succ n))
      · refine ⟨.inr ⟨_, hlast, rfl⟩, fun s hs heq => ?_⟩
        have hslot := hm.spans.injective s _ (hs.mono (Nat.le_succ n)) hlast heq
        exact (dropped_ofIndex hmax).2 (hslot ▸ hs)
      · refine ⟨.inr ⟨s, hs, rfl⟩, fun t ht heq => ?_⟩
        have hslot := hm.spans.injective t s (ht.mono (Nat.le_succ n)) hs heq
        subst hslot
        -- a block in use has a pointer in its first word
        have hchild := Slot.inUse_child ht hmeta
        have hthree := (hr.reshaped.isData hchild).three_lt
        have hcell : (fileTree g i h.lt).cell m' (t.child 0) =
            1024 * t.target m (inodeAt i) + 4 * 0 := by
          rw [← hsame t ht, ← (hr.reshaped.isData ht).block, ← Slot.index_child hmeta 0]
          exact PointerTree.cell_of_some (Slot.parent_child hmeta 0)
        have hzero := hempty 0 (by decide)
        rw [← hcell, Reshaped.load32_cell] at hzero
        omega
  · rw [hcount] at hs
    have hdata := hm.isData hs
    rw [← cell_eq_address h.lt]
    refine hr.zero s ⟨hs, fun hin => ?_⟩
    exact ((hfree _ hdata.2).1 hbit).2 s hin rfl
  · have hlt : k < n := by omega
    have hftype : oiFtype m' (inodeAt i) ≠ ftypeSymlink := by
      have hfield : oiFtype m' (inodeAt i) = oiFtype m (inodeAt i) :=
        h.stored.field_of_reach h.lt hr.reshaped.changes (by decide) (by decide)
      rw [hfield]
      exact hfile.ftype
    have huse : (Slot.ofIndex k).InUse n := Slot.ofIndex_inUse hlt hmax.le
    rw [hblock k (by omega), fileBlock_eq hftype (mul_lt_of_lt_blockCount (by omega)),
      hsame _ huse]
  · have hlt : k < n := by omega
    have huse : (Slot.ofIndex k).InUse n := Slot.ofIndex_inUse hlt hmax.le
    have hdata := hm.isData (huse.mono (Nat.le_succ n))
    rw [hblock k (by omega), Bool.eq_false_iff]
    intro hbit
    exact ((hfree _ hdata.2).1 hbit).2 _ huse rfl

theorem freeBlock_bitmap (hfits : g.Fits m) (b : Nat) :
    ChangesOnly (blockBytes 2) m (freeBlock m b) := by
  have hblocks := g.nblocks_le
  unfold freeBlock
  rw [hfits.nblocks]
  dsimp only
  split_ifs with hb
  · exact bitvectorSet_changesOnly (by omega)
  · exact .refl m

/-- The blocks after the first one below the indirect block are lost. -/
theorem not_shrunk_of_single (h : WellFormed g m own i) (hn : 12 ≤ blockCount m i)
    (hn' : blockCount m i ≤ 266) : ¬ Shrunk g i m (removeBlock m (inodeAt i)).2 := by
  intro hshrunk
  obtain ⟨m', hremove, hcut, -⟩ := removeBlock_cut h.stored h.owner (by omega) hn'
  rw [hremove] at hshrunk
  have hkept := (hshrunk.kept 10 (by omega)).1
  have huse : (Slot.ofIndex 10).InUse (blockCount m i) := h.ofIndex_inUse (by omega)
  rw [fileBlock_eq (b := 10) (h.stored.file i h.owner).ftype
    (mul_lt_of_lt_blockCount (by omega))] at hkept
  have hthree := (h.isData huse).three_lt
  have hzero : fileBlock m' i 10 = 0 := by
    by_cases hsize : 1024 * 10 < oiSize m' (inodeAt i)
    · by_cases hftype : oiFtype m' (inodeAt i) = ftypeSymlink
      · exact if_pos (.inr hftype)
      · rw [fileBlock_eq hftype hsize]
        change load32 m' (ospfsBlock (oiIndirect m' (inodeAt i)) + 4 * 0) = 0
        rw [hcut.indirect]
        refine load32_eq_zero fun d hd => ?_
        have hlow : ospfsBlock 0 + 4 * 0 + d < 1024 := by
          simp only [ospfsBlock]
          omega
        rw [hcut.changes _ fun hmem => by
          have hreach := h.stored.le_of_reach hmem
          omega]
        exact h.stored.boot _ hlow
    · exact fileBlock_of_le (not_lt.1 hsize)
  rw [hzero] at hkept
  exact absurd hkept.symm (by
    intro heq
    rw [heq] at hthree
    omega)

theorem removeBlock_of_first (hn : 267 ≤ blockCount m i) (hn' : blockCount m i ≤ 522) :
    removeBlock m (inodeAt i) = removeDouble m (inodeAt i) (blockCount m i - 11) 0 := by
  have hindir2 : indir2Index (blockCount m i - 1) = 0 := if_neg (by omega)
  have hindir : indirIndex (blockCount m i - 1) = 0 := by
    unfold indirIndex
    rw [if_neg (by omega), if_pos hindir2]
    omega
  have hdirect : directIndex (blockCount m i - 1) = blockCount m i - 11 := by
    unfold directIndex
    rw [hindir, if_neg (by decide), if_pos rfl]
    omega
  simp only [removeBlock, ← blockCount_eq, hindir, hdirect]
  rw [if_neg (by omega), if_neg (by omega), if_neg (by omega)]
  rfl

/-- The pointer to the last block stays. -/
theorem not_shrunk_of_first (h : WellFormed g m own i) (hn : 267 ≤ blockCount m i)
    (hn' : blockCount m i ≤ 522) (hnone : (removeBlock m (inodeAt i)).1 = none) :
    ¬ Shrunk g i m (removeBlock m (inodeAt i)).2 := by
  intro hshrunk
  have huse : (Slot.ofIndex (blockCount m i - 1)).InUse (blockCount m i) :=
    h.ofIndex_inUse (by omega)
  have hindex : Slot.ofIndex (blockCount m i - 1) = .double 0 (blockCount m i - 267) := by
    unfold Slot.ofIndex
    rw [if_neg (by omega), if_neg (by omega), Nat.div_eq_of_lt (by omega),
      Nat.mod_eq_of_lt (by omega), Nat.sub_sub]
  have hblock : fileBlock m i (blockCount m i - 1) =
      (Slot.ofIndex (blockCount m i - 1)).target m (inodeAt i) :=
    fileBlock_eq (h.stored.file i h.owner).ftype (mul_lt_of_lt_blockCount (by omega))
  have hdata := h.isData huse
  have hfreed := (hshrunk.freed _ hdata.2).2 (.inr (.inl hblock.symm))
  have hzero := hshrunk.zero _ huse hfreed
  rw [hindex] at hzero huse hdata
  have houter : (Slot.outer 0).InUse (blockCount m i) := huse.parent rfl
  have hdata' := h.isData houter
  have hinode := inode_le_of_isData hdata' h.lt
  have hthree := hdata.three_lt
  have haddress : (Slot.double 0 (blockCount m i - 267)).address m (inodeAt i) =
      1024 * (Slot.outer 0).target m (inodeAt i) + 4 * (blockCount m i - 267) := by
    rw [← hdata'.block]
    rfl
  have hload : load32 m ((Slot.double 0 (blockCount m i - 267)).address m (inodeAt i)) =
      (Slot.double 0 (blockCount m i - 267)).target m (inodeAt i) := by
    rw [← cell_eq_address h.lt, Reshaped.load32_cell]
  rw [removeBlock_of_first hn hn'] at hzero hnone
  have hthree' := hdata'.three_lt
  set d := (Slot.outer 0).target m (inodeAt i) with hd
  -- the word that is cleared is in the block after the indirect block
  have hchanges : ChangesOnly (blockBytes 2 ∪ blockBytes (d + 1) ∪
      Set.Ico (inodeAt i) (inodeAt i + 4)) m
      (removeDouble m (inodeAt i) (blockCount m i - 11) 0).2 := by
    have hindN : load32 m (ospfsBlock (oiIndirect2 m (inodeAt i)) + 4 * 0) = d := rfl
    have hoffset : blockCount m i - 11 ≠ 0 := by omega
    unfold removeDouble at hnone ⊢
    simp only [hindN, if_neg hoffset] at hnone ⊢
    split_ifs at hnone ⊢ with h1 h2
    · refine (((freeBlock_bitmap h.stored.fits _).mono ?_).trans
        ((fill_changesOnly _ _ 4 0).mono ?_)).trans ((store32_changesOnly _ _ _).mono ?_)
      · exact fun x hx => .inl (.inl hx)
      · refine fun x hx => .inl (.inr ?_)
        rw [hdata'.block] at hx
        simp only [blockBytes, Set.mem_Ico] at *
        omega
      · exact fun x hx => .inr hx
  rw [hchanges.load32 fun e he hmem => ?_, hload] at hzero
  · omega
  · rw [haddress] at hmem
    rcases hmem with (hbitmap | hblock') | hfield
    · simp only [blockBytes, Set.mem_Ico] at hbitmap
      omega
    · simp only [blockBytes, Set.mem_Ico] at hblock'
      omega
    · simp only [Set.mem_Ico] at hfield
      omega

/--
A file shrinks by one block as it should if the block is direct, or the first
one below the indirect block, or not below the first indirect block of the
doubly indirect block.
-/
theorem removeBlock_shrunk_iff (h : WellFormed g m own i) (hpos : 1 ≤ blockCount m i) :
    (removeBlock m (inodeAt i)).1 = none ∧ Shrunk g i m (removeBlock m (inodeAt i)).2 ↔
      blockCount m i ≤ 11 ∨ 523 ≤ blockCount m i := by
  constructor
  · rintro ⟨hnone, hshrunk⟩
    by_contra hn
    by_cases hsingle : blockCount m i ≤ 266
    · exact not_shrunk_of_single h (by omega) hsingle hshrunk
    · exact not_shrunk_of_first h (by omega) (by omega) hnone hshrunk
  · intro hn
    obtain ⟨n, hcount⟩ := Nat.exists_eq_add_of_le' hpos
    have hr : Reshaped h.lt own m (·.InUse (n + 1)) m := hcount ▸ Reshaped.refl h
    obtain ⟨m', hremove, hreduced⟩ := hr.removeBlock h hcount (hcount ▸ hn)
    rw [hremove]
    exact ⟨rfl, hreduced.shrunk h hcount⟩

theorem removeBlock_shrunk_iff_eleven :
    (removeBlock (oneFile 11 64) (inodeAt 2)).1 = none ∧
      Shrunk oneFileGeometry 2 (oneFile 11 64) (removeBlock (oneFile 11 64) (inodeAt 2)).2 :=
  (removeBlock_shrunk_iff (oneFile_wellFormed (by decide) (by decide)) (by
    rw [blockCount_oneFile (by decide)]
    decide)).2 (.inl (by
      rw [blockCount_oneFile (by decide)]))

/-- With the last of twelve blocks the indirect block goes. -/
theorem twelveBlocks_not_shrunk :
    WellFormed oneFileGeometry (oneFile 12 64) (· = 2) 2 ∧ 1 ≤ blockCount (oneFile 12 64) 2 ∧
      ¬ ((removeBlock (oneFile 12 64) (inodeAt 2)).1 = none ∧
        Shrunk oneFileGeometry 2 (oneFile 12 64) (removeBlock (oneFile 12 64) (inodeAt 2)).2) := by
  have hwell : WellFormed oneFileGeometry (oneFile 12 64) (· = 2) 2 :=
    oneFile_wellFormed (by decide) (by decide)
  have hcount : blockCount (oneFile 12 64) 2 = 12 := blockCount_oneFile (by decide)
  refine ⟨hwell, hcount.ge.trans' (by decide), fun h => ?_⟩
  exact not_shrunk_of_single hwell hcount.ge (hcount.trans_le (by decide)) h.2

end Shrink

end Cs111Labs.Ospfs
