import Cs111Labs.Ospfs.EntryGrowth

/-!
# Adding a block to a full disk

What `add_block` leaves of a file and of the bitmap when it cannot get all the
blocks that it needs.
-/

namespace Cs111Labs.Ospfs

open Foundation Memory

variable {g : Geometry} {m m' : Memory} {own : Nat → Prop} {b i : Nat}

/-- The size and the pointers of a file and the bitmap are as before. -/
structure Preserved (g : Geometry) (i : Nat) (m m' : Memory) : Prop where
  size : oiSize m' (inodeAt i) = oiSize m (inodeAt i)
  pointer : ∀ s : Slot, s.Valid → (∀ p, s.parent = some p → p.InUse (blockCount m i)) →
    s.target m' (inodeAt i) = s.target m (inodeAt i)
  bitmap : ∀ c < g.nblocks, bitvectorTest m' freemap c = bitvectorTest m freemap c

/-- `add_block` fails and leaves no traces. -/
structure FailsAtomically (g : Geometry) (i : Nat) (m : Memory) : Prop where
  enospc : (addBlock m (inodeAt i)).1 = some .enospc
  preserved : Preserved g i m (addBlock m (inodeAt i)).2

theorem Preserved.refl (g : Geometry) (i : Nat) (m : Memory) : Preserved g i m m where
  size := rfl
  pointer _ _ _ := rfl
  bitmap _ _ := rfl

/-- The contents of a free block are nothing that is kept. -/
theorem Preserved.erased (h : WellFormed g m own i) (hb : b ∈ freeBlocks g m) :
    Preserved g i m (fill m (1024 * b) 1024 0) := by
  have hfree := (mem_freeBlocks own).1 hb
  have hdata : g.IsData b := h.stored.safe.free_mem b hfree
  have hthree := hdata.three_lt
  have hchanges : ChangesOnly (blockBytes b) m (fill m (1024 * b) 1024 0) :=
    fill_changesOnly m _ 1024 0
  have hr := Reshaped.refl h
  have hother := ((hr.free_iff b hfree.1).1 hfree.2).2
  have hout : ∀ s, (fileTree g i h.lt).InPlace (·.InUse (blockCount m i)) s →
      ∀ a ∈ blockBytes b, a ∉ (fileTree g i h.lt).word m s := fun s hs a ha hmem =>
    FileTree.word_block hr.spans hs hdata (fun p hparent => hother p (hs.2 p hparent)) hmem ha
  constructor
  · refine hchanges.load32 fun t ht => not_mem_blockBytes_of_inode hdata h.lt ?_
    simp only [inodeBytes, Set.mem_Ico]
    omega
  · intro s hvalid hparent
    exact hr.spans.target_eq_of_inPlace hchanges
      (fun t ht => hout t (hr.spans.inPlace t ht)) ⟨hvalid, hparent⟩ (hout s ⟨hvalid, hparent⟩)
  · intro c hc
    have hblocks := g.nblocks_le
    exact bitvectorTest_changesOnly hchanges (fun a ha => not_mem_blockBytes_of_ne (by omega) ha)
      (by omega)

/-- The second block of a pointer block below the doubly indirect block is missing. -/
theorem addBlock_last_not_atomic (h : WellFormed g m own i)
    (hn : blockCount m i = 266 ∨ 522 ≤ blockCount m i ∧ (blockCount m i - 266) % 256 = 0)
    (hlast : (freeBlocks g m).card = 1) : ¬ FailsAtomically g i m := by
  intro hatomic
  rcases hn with hfirst | ⟨hlarge, hoffset⟩
  · obtain ⟨m', hadd, -, hne⟩ := addBlock_last_first h hfirst hlast
    have hpointer := hatomic.preserved.pointer .indirect2 trivial nofun
    rw [hadd] at hpointer
    exact hne hpointer
  · have hlimit := (Reshaped.refl h).le_nblocks
    obtain ⟨m', hadd, -, hne⟩ := addBlock_last_outer h hlarge hoffset hlast
    have hpointer := hatomic.preserved.pointer (.outer ((blockCount m i - 266) / 256))
      (by simp only [Slot.Valid]; omega)
      fun p hparent => by
        cases hparent
        simp only [Slot.InUse]
        omega
    rw [hadd] at hpointer
    exact hne hpointer

/--
The call is atomic if the first allocation fails and is noticed, or if it is the
one after that of the indirect block.
-/
theorem failsAtomically_iff (h : WellFormed g m own i)
    (hroom : (freeBlocks g m).card < Slot.missing (blockCount m i)) :
    FailsAtomically g i m ↔ blockCount m i = 10 ∨
      (freeBlocks g m).card = 0 ∧ ¬ (10 < blockCount m i ∧ blockCount m i < 266) := by
  unfold Slot.missing at hroom
  constructor
  · intro hatomic
    by_contra hnot
    push Not at hnot
    obtain ⟨hten, hfull⟩ := hnot
    rw [if_neg hten] at hroom
    by_cases hcard : (freeBlocks g m).card = 0
    · obtain ⟨hlow, hhigh⟩ := hfull hcard
      have henospc := hatomic.enospc
      rw [addBlock_boot h hcard hlow hhigh] at henospc
      cases henospc
    · split_ifs at hroom with hfirst houter
      · by_cases hlast : (freeBlocks g m).card = 1
        · exact addBlock_last_not_atomic h (.inl hfirst) hlast hatomic
        · obtain ⟨m', hadd, -⟩ := addBlock_266 h hfirst (by omega)
          have henospc := hatomic.enospc
          rw [hadd] at henospc
          cases henospc
      · exact addBlock_last_not_atomic h (.inr ⟨by omega, houter.2⟩) (by omega) hatomic
      · omega
  · intro hcases
    by_cases hcard : (freeBlocks g m).card = 0
    · have hadd := addBlock_full h.stored.fits (h.stored.file i h.owner).indirect hcard (by omega)
      refine ⟨by rw [hadd], ?_⟩
      rw [hadd]
      exact .refl g i m
    · have hten : blockCount m i = 10 := hcases.resolve_right fun hfull => hcard hfull.1
      rw [if_pos hten] at hroom
      obtain ⟨b, hb, hadd⟩ := addBlock_last_indirect h hten (by omega)
      refine ⟨by rw [hadd], ?_⟩
      rw [hadd]
      exact .erased h hb

/-- The first indirect block is given back. -/
theorem failsAtomically_iff_ten :
    FailsAtomically oneFileGeometry 2 (oneFile 10 8191) :=
  (failsAtomically_iff (oneFile_wellFormed (by decide) (by decide)) (by
    rw [card_freeBlocks_oneFile, blockCount_oneFile (by decide)]
    decide)).mpr (.inl (blockCount_oneFile (by decide)))

/-- On a full disk a file of eleven blocks grows by the boot sector. -/
theorem elevenBlocks_not_atomic :
    WellFormed oneFileGeometry (oneFile 11 8192) (· = 2) 2 ∧
      (freeBlocks oneFileGeometry (oneFile 11 8192)).card <
        Slot.missing (blockCount (oneFile 11 8192) 2) ∧
      ¬ FailsAtomically oneFileGeometry 2 (oneFile 11 8192) := by
  have hwell : WellFormed oneFileGeometry (oneFile 11 8192) (· = 2) 2 :=
    oneFile_wellFormed (by decide) (by decide)
  have hcard : (freeBlocks oneFileGeometry (oneFile 11 8192)).card = 0 := by
    rw [card_freeBlocks_oneFile]
  have hcount : blockCount (oneFile 11 8192) 2 = 11 := blockCount_oneFile (by decide)
  refine ⟨hwell, ?_, fun hatomic => ?_⟩
  · rw [hcard, hcount]
    decide
  · have henospc := hatomic.enospc
    rw [addBlock_boot hwell hcard (hcount.symm ▸ by decide) (hcount.symm ▸ by decide)] at henospc
    cases henospc

end Cs111Labs.Ospfs
