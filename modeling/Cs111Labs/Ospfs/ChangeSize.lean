import Cs111Labs.Ospfs.OneFile
import Cs111Labs.Ospfs.ResizeRuns

/-!
# Changing the size of a file

Where the blocks that come or go are at the places that `add_block` and
`remove_block` handle, `change_size` does what it says for every size: with
enough free blocks the file gets its new size, without them nothing changes.
-/

namespace Cs111Labs.Ospfs

open Foundation Memory

variable {g : Geometry} {m m' m₀ : Memory} {own : Nat → Prop} {i k n newSize : Nat}

/-- Every block between the two numbers of blocks is at a place that is handled. -/
structure Handled (n k : Nat) : Prop where
  added : ∀ j, n ≤ j → j < k → Addressed j
  removed : ∀ j, k ≤ j → j < n → j < 11 ∨ 522 ≤ j

/-- The file has its new size, keeps the bytes below both sizes, and no block is lost. -/
structure SizeChanged (g : Geometry) (own : Nat → Prop) (i newSize : Nat) (m m' : Memory) :
    Prop where
  wellFormed : WellFormed g m' own i
  size : oiSize m' (inodeAt i) = newSize
  contents : ∀ off, off < oiSize m (inodeAt i) → off < newSize →
    content m' i off = content m i off
  others : ∀ j, own j → j ≠ i → SameFile m m' j
  free_iff : ∀ c < g.nblocks, bitvectorTest m' freemap c = true ↔
    (bitvectorTest m freemap c = true ∨
      ∃ s : Slot, s.InUse (blockCount m i) ∧ s.target m (inodeAt i) = c) ∧
    ∀ s : Slot, s.InUse (blockCount m' i) → s.target m' (inodeAt i) ≠ c

/-- The size is stored when the blocks are right. -/
theorem Reshaped.sizeChanged (h₀ : WellFormed g m₀ own i) (hnew : newSize + 1023 < 2 ^ 32)
    (h : Reshaped h₀.lt own m₀ (·.InUse (ospfsSize2nblocks newSize)) m) :
    SizeChanged g own i newSize m₀ (Ospfs.setOiSize m (inodeAt i) newSize) := by
  have hlimit := h.le_nblocks
  have hset := h.setOiSize newSize
  have hsize : oiSize (Ospfs.setOiSize m (inodeAt i) newSize) (inodeAt i) = newSize := by
    rw [oiSize, Ospfs.setOiSize, load32_store32_same]
    omega
  have hle : newSize ≤ 1024 * ospfsSize2nblocks newSize := by
    unfold ospfsSize2nblocks
    omega
  have hmax : newSize ≤ 1024 * Slot.maxfileblks := by
    unfold Slot.maxfileblks
    omega
  have hcount : blockCount (Ospfs.setOiSize m (inodeAt i) newSize) i = ospfsSize2nblocks newSize :=
    blockCount_of_size hsize
  refine ⟨hset.wellFormed h₀ hcount (hsize.trans_le hmax), hsize, fun off hoff hoff' => ?_,
    fun j hj hne => h₀.stored.sameFile_of_reach h₀.lt hj hne hset.changes, ?_⟩
  · exact hset.content_eq h₀ (hoff'.trans_eq hsize.symm) (hoff'.trans_le hle) hoff
  · rw [hcount]
    exact hset.free_iff

/-- The number of blocks while the size, as a word, is that of more or fewer blocks. -/
theorem size2nblocks_sub {size e : Nat} (hsize : size ≤ 8388608)
    (he : e ≤ ospfsSize2nblocks size) :
    ospfsSize2nblocks ((size + (2 ^ 32 - 1024 * e)) % 2 ^ 32) = ospfsSize2nblocks size - e := by
  unfold ospfsSize2nblocks at *
  omega

/-- The rounds of `remove_block`, down to the new number of blocks. -/
theorem Reshaped.shrinkLoop (h₀ : WellFormed g m₀ own i) (rounds : Nat) {d e : Nat}
    (h : Reshaped h₀.lt own m₀ (·.InUse (ospfsSize2nblocks newSize + d)) m)
    (hcount : ospfsSize2nblocks newSize + d + e = blockCount m₀ i)
    (hsize : oiSize m (inodeAt i) =
      (oiSize m₀ (inodeAt i) + (2 ^ 32 - 1024 * e)) % 2 ^ 32)
    (hremoved : ∀ j, ospfsSize2nblocks newSize ≤ j → j < ospfsSize2nblocks newSize + d →
      j < 11 ∨ 522 ≤ j) :
    ∃ m', Ospfs.shrinkLoop (inodeAt i) newSize (rounds + d) none m = (none, m') ∧
      Reshaped h₀.lt own m₀ (·.InUse (ospfsSize2nblocks newSize)) m' := by
  induction d generalizing m e with
  | zero =>
      have hblocks := blockCount_of_size hsize
      rw [blockCount_eq] at hcount hblocks
      rw [size2nblocks_sub h₀.size_lt (by omega)] at hblocks
      exact ⟨m, shrinkLoop_done (by omega) _ _, h⟩
  | succ d ih =>
      have hblocks := blockCount_of_size hsize
      rw [blockCount_eq] at hcount
      rw [size2nblocks_sub h₀.size_lt (by omega)] at hblocks
      have hlast := hremoved (ospfsSize2nblocks newSize + d) (by omega) (by omega)
      obtain ⟨m₁, hremove, hreduced⟩ := h.removeBlock h₀ (n := ospfsSize2nblocks newSize + d)
        (by omega) (by omega)
      have hfirst := h₀.size_lt
      have hsize₁ : oiSize m₁ (inodeAt i) =
          (oiSize m₀ (inodeAt i) + (2 ^ 32 - 1024 * (e + 1))) % 2 ^ 32 := by
        rw [hreduced.size, hsize]
        unfold ospfsSize2nblocks at hcount
        omega
      obtain ⟨m', hrest, hreshaped⟩ := ih hreduced.reshaped (by rw [blockCount_eq]; omega) hsize₁
        fun j hj hlt => hremoved j hj (by omega)
      refine ⟨m', ?_, hreshaped⟩
      rw [blockCount_eq] at hblocks
      rw [← Nat.add_assoc, Ospfs.shrinkLoop, if_pos (by omega), hremove]
      exact hrest

/-- The rounds of `add_block`, up to the new number of blocks. -/
theorem changeSize_grows (h₀ : WellFormed g m own i) (hnew : newSize + 1023 < 2 ^ 32)
    (hle : blockCount m i ≤ ospfsSize2nblocks newSize)
    (hplaced : ∀ j, blockCount m i ≤ j → j < ospfsSize2nblocks newSize → Addressed j)
    (hroom : needed (blockCount m i) (ospfsSize2nblocks newSize) ≤ (freeBlocks g m).card) :
    ∃ m', changeSize m (inodeAt i) newSize = (none, m') ∧ SizeChanged g own i newSize m m' := by
  obtain ⟨d, hd⟩ := Nat.exists_eq_add_of_le hle
  have hmax : d + 1 ≤ maxRounds := by
    unfold ospfsSize2nblocks at hd
    unfold maxRounds
    omega
  obtain ⟨rounds, hrounds⟩ := Nat.exists_eq_add_of_le' hmax
  obtain ⟨m₁, hrun, h₁⟩ := (Enlarged.refl h₀).growLoop h₀ (Nat.le_of_eq hd.symm)
    (fun j hj hlt => hplaced j hj (hlt.trans_eq hd.symm)) (by rwa [← hd]) (rounds + 1) 0
  rw [← hd] at h₁
  have hcount := h₁.count h₀
  rw [blockCount_eq] at hcount
  have hgrow : growLoop (inodeAt i) newSize maxRounds 0 m = (none, 0 + d, m₁) := by
    rw [hrounds, show rounds + (d + 1) = rounds + 1 + d by omega, hrun, growLoop,
      if_neg (by omega)]
  refine ⟨_, ?_, h₁.reshaped.sizeChanged h₀ hnew⟩
  rw [changeSize_of_grown hgrow, shrinkLoop_done (Nat.le_of_eq hcount)]

/-- The rounds of `remove_block`. -/
theorem changeSize_shrinks (h₀ : WellFormed g m own i) (hnew : newSize + 1023 < 2 ^ 32)
    (hle : ospfsSize2nblocks newSize ≤ blockCount m i)
    (hremoved : ∀ j, ospfsSize2nblocks newSize ≤ j → j < blockCount m i → j < 11 ∨ 522 ≤ j) :
    ∃ m', changeSize m (inodeAt i) newSize = (none, m') ∧ SizeChanged g own i newSize m m' := by
  obtain ⟨d, hd⟩ := Nat.exists_eq_add_of_le hle
  have hcount := hd
  rw [blockCount_eq] at hcount
  have hmax : d + 1 ≤ maxRounds := by
    unfold ospfsSize2nblocks at hcount
    unfold maxRounds
    omega
  obtain ⟨rounds, hrounds⟩ := Nat.exists_eq_add_of_le' hmax
  have hsize : oiSize m (inodeAt i) = (oiSize m (inodeAt i) + (2 ^ 32 - 1024 * 0)) % 2 ^ 32 := by
    have hlt : oiSize m (inodeAt i) < 2 ^ 32 := load32_lt m _
    omega
  have hrefl := Reshaped.refl h₀
  rw [hd] at hrefl
  obtain ⟨m₁, hshrink, h₁⟩ := Reshaped.shrinkLoop h₀ (rounds + 1) hrefl (by omega) hsize
    fun j hj hlt => hremoved j hj (hlt.trans_eq hd.symm)
  have hgrow : growLoop (inodeAt i) newSize maxRounds 0 m = (none, 0, m) := by
    rw [hrounds, ← Nat.add_assoc, growLoop, if_neg (by omega)]
  refine ⟨_, ?_, h₁.sizeChanged h₀ hnew⟩
  rw [changeSize_of_grown hgrow, hrounds, show rounds + (d + 1) = rounds + 1 + d by omega, hshrink]

/-- With enough free blocks `change_size` does what it says. -/
theorem changeSize_resizes (h₀ : WellFormed g m own i) (hnew : newSize + 1023 < 2 ^ 32)
    (hhandled : Handled (blockCount m i) (ospfsSize2nblocks newSize))
    (hroom : needed (blockCount m i) (ospfsSize2nblocks newSize) ≤ (freeBlocks g m).card) :
    ∃ m', changeSize m (inodeAt i) newSize = (none, m') ∧ SizeChanged g own i newSize m m' := by
  rcases Nat.le_total (blockCount m i) (ospfsSize2nblocks newSize) with hle | hle
  · exact changeSize_grows h₀ hnew hle hhandled.added hroom
  · exact changeSize_shrinks h₀ hnew hle hhandled.removed

theorem changeSize_resizes_oneFile : ∃ m', changeSize (oneFile 5 64) (inodeAt 2) 12000 =
    (none, m') ∧ SizeChanged oneFileGeometry (· = 2) 2 12000 (oneFile 5 64) m' := by
  have hcount : blockCount (oneFile 5 64) 2 = 5 := blockCount_oneFile (by decide)
  refine changeSize_resizes (oneFile_wellFormed (by decide) (by decide)) (by decide) ?_ ?_
  · rw [hcount]
    exact ⟨fun j hj hlt => .inl (hlt.trans (by decide)), fun j hj hlt => by
      exact absurd (hj.trans_lt hlt) (by decide)⟩
  · rw [hcount, card_freeBlocks_oneFile]
    decide

/-- Without enough free blocks it leaves everything as it was. -/
theorem changeSize_rollsBack (h₀ : WellFormed g m own i)
    (hshort : (freeBlocks g m).card < needed (blockCount m i) (ospfsSize2nblocks newSize))
    (hundone : ∀ k, StopsAt g m i k → Undone (blockCount m i) k (freeBlocks g m).card) :
    RollsBack g i newSize m := by
  obtain ⟨k, hk, hstops⟩ := exists_stopsAt hshort
  exact hstops.rollsBack h₀ hk (hundone k hstops)

theorem changeSize_rollsBack_oneFile : RollsBack oneFileGeometry 2 12000 (oneFile 5 8190) := by
  have hcount : blockCount (oneFile 5 8190) 2 = 5 := blockCount_oneFile (by decide)
  refine changeSize_rollsBack (oneFile_wellFormed (by decide) (by decide)) ?_ ?_
  · rw [hcount, card_freeBlocks_oneFile]
    decide
  · intro k hstops
    have hroom := hstops.room
    rw [hcount, card_freeBlocks_oneFile] at hroom
    refine .inl (Nat.le_of_not_lt fun hlt => ?_)
    exact absurd ((needed_mono (Nat.le_of_lt hlt)).trans hroom) (by decide)

end Cs111Labs.Ospfs
