import Cs111Labs.Ospfs.FullDisk
import Cs111Labs.Ospfs.RemoveBlock
import Mathlib.Algebra.BigOperators.Intervals

/-!
# Changing the size of a file by many blocks

Between two rounds of the loops of `change_size` the file is well formed again,
and what happened to it since the call is one change of its blocks.
-/

namespace Cs111Labs.Ospfs

open Foundation Memory

variable {g : Geometry} {m m' m₀ : Memory} {own : Nat → Prop} {b i j k n : Nat}
  {U : Slot → Prop} {s : Slot}

/-! ## Between two rounds -/

namespace Reshaped

variable {hi : i < g.ninodes}

theorem owns_iff (h : Reshaped hi own m₀ (·.InUse n) m) (hown : own i)
    (hcount : blockCount m i = n) :
    Owns m own (i, s) b ↔ s.InUse n ∧ s.target m (inodeAt i) = b := by
  constructor
  · rintro ⟨-, huse, htarget, -⟩
    exact ⟨hcount ▸ huse, htarget⟩
  · rintro ⟨huse, rfl⟩
    have hthree := (h.isData huse).three_lt
    exact ⟨hown, hcount.symm ▸ huse, rfl, .inl (by omega)⟩

/-- A block of the file was one of its blocks before, or it was free. -/
theorem held_before (h : Reshaped hi own m₀ U m) (h₀ : WellFormed g m₀ own i) (hs : U s) :
    Owns m₀ own (i, s) (s.target m (inodeAt i)) ∨
      (ledger g m₀ own).Free (s.target m (inodeAt i)) := by
  by_cases huse : s.InUse (blockCount m₀ i)
  · rw [h.kept s hs huse]
    exact .inl (h₀.owns huse)
  · exact .inr (h.fresh s hs huse)

theorem other_owns_iff (h : Reshaped hi own m₀ U m) (h₀ : WellFormed g m₀ own i) (hj : j ≠ i) :
    Owns m own (j, s) b ↔ Owns m₀ own (j, s) b :=
  Spares.owns_iff h₀.stored.safe h.changes
    (fun hown => h₀.stored.spares_of_reach h₀.lt hown hj) s b

/-- A block of another file is none of this file, and it is not free. -/
theorem other_apart (h : Reshaped hi own m₀ U m) (h₀ : WellFormed g m₀ own i) (hj : j ≠ i)
    {t : Slot} (howns : Owns m own (j, t) b) :
    (∀ s, U s → s.target m (inodeAt i) ≠ b) ∧ ¬ (ledger g m own).Free b := by
  have hbefore := (h.other_owns_iff h₀ hj).1 howns
  have hown : ∀ s, ¬ Owns m₀ own (i, s) b := fun s hs => by
    have hplace := h₀.stored.safe.once _ _ _ hs hbefore
    simp only [Prod.mk.injEq] at hplace
    exact hj hplace.1.symm
  have hfree : ¬ (ledger g m₀ own).Free b := h₀.stored.safe.held_not_free _ _ hbefore
  refine ⟨fun s hs heq => ?_, fun hnow => ?_⟩
  · rcases h.held_before h₀ hs with hheld | hheld
    · exact hown s (heq ▸ hheld)
    · exact hfree (heq ▸ hheld)
  · obtain ⟨hlt, hbit⟩ := hnow
    rcases ((h.free_iff b hlt).1 hbit).1 with hbit' | ⟨s, hs, heq⟩
    · exact hfree ⟨hlt, hbit'⟩
    · exact hown s (heq ▸ h₀.owns hs)

theorem safe (h : Reshaped hi own m₀ (·.InUse n) m) (h₀ : WellFormed g m₀ own i)
    (hcount : blockCount m i = n) : Safe g m own where
  held_mem := by
    rintro ⟨j, s⟩ b howns
    by_cases hj : j = i
    · subst hj
      obtain ⟨huse, rfl⟩ := (h.owns_iff h₀.owner hcount).1 howns
      exact h.isData huse
    · exact h₀.stored.safe.held_mem _ b ((h.other_owns_iff h₀ hj).1 howns)
  free_mem b hb := by
    obtain ⟨hlt, hbit⟩ := hb
    rcases ((h.free_iff b hlt).1 hbit).1 with hbit' | ⟨s, hs, rfl⟩
    · exact h₀.stored.safe.free_mem b ⟨hlt, hbit'⟩
    · exact h₀.isData hs
  held_not_free := by
    rintro ⟨j, s⟩ b howns hfree
    by_cases hj : j = i
    · subst hj
      obtain ⟨huse, rfl⟩ := (h.owns_iff h₀.owner hcount).1 howns
      exact ((h.free_iff _ hfree.1).1 hfree.2).2 s huse rfl
    · exact (h.other_apart h₀ hj howns).2 hfree
  once := by
    rintro ⟨j, s⟩ ⟨j', t⟩ b howns howns'
    by_cases hj : j = i
    · subst hj
      obtain ⟨huse, heq⟩ := (h.owns_iff h₀.owner hcount).1 howns
      by_cases hj' : j' = j
      · subst hj'
        obtain ⟨huse', heq'⟩ := (h.owns_iff h₀.owner hcount).1 howns'
        rw [h.spans.injective s t huse huse' (heq.trans heq'.symm)]
      · exact absurd heq ((h.other_apart h₀ hj' howns').1 s huse)
    · by_cases hj' : j' = i
      · subst hj'
        obtain ⟨huse', heq'⟩ := (h.owns_iff h₀.owner hcount).1 howns'
        exact absurd heq' ((h.other_apart h₀ hj howns).1 t huse')
      · exact h₀.stored.safe.once _ _ b ((h.other_owns_iff h₀ hj).1 howns)
          ((h.other_owns_iff h₀ hj').1 howns')
  func := by
    rintro ⟨j, s⟩ b c howns howns'
    exact howns.target.symm.trans howns'.target

/-- After the change the file is well formed. -/
theorem wellFormed (h : Reshaped hi own m₀ (·.InUse n) m) (h₀ : WellFormed g m₀ own i)
    (hcount : blockCount m i = n) (hsize : oiSize m (inodeAt i) ≤ 1024 * Slot.maxfileblks) :
    WellFormed g m own i := by
  have hpos : ∀ s : Slot, s.InUse n → s.target m (inodeAt i) ≠ 0 := fun s hs => by
    have hthree := (h.isData hs).three_lt
    omega
  have hfile : StoredFile False m i := by
    refine ⟨?_, hsize, fun k hk hlt => ?_, fun hle => ?_, fun _ s hs => ?_, False.elim⟩
    · have hfield : oiFtype m (inodeAt i) = oiFtype m₀ (inodeAt i) :=
        h₀.stored.field_of_reach hi h.changes (by decide) (by decide)
      rw [hfield]
      exact (h₀.stored.file i h₀.owner).ftype
    · exact hpos (.direct k) ⟨hk, hcount ▸ hlt⟩
    · refine h.tidy .indirect ⟨trivial, nofun⟩ fun huse => ?_
      have hlt : 10 < n := huse
      omega
    · exact .inl (hpos s (hcount ▸ hs))
  refine ⟨h₀.stored.of_reach h₀.owner h.changes (h.safe h₀ hcount) False.elim hfile, h₀.owner,
    fun s hs => .inl (hpos s (hcount ▸ hs)), fun s hvalid hparent hunused => ?_⟩
  rw [hcount] at hparent hunused
  exact h.tidy s ⟨hvalid, hparent⟩ hunused

/-- A free block may be erased. -/
theorem erase (h : Reshaped hi own m₀ U m) (h₀ : WellFormed g m₀ own i)
    (hkeeps : ∀ s : Slot, s.InUse (blockCount m₀ i) → U s) (hb : (ledger g m own).Free b) :
    Reshaped hi own m₀ U (fill m (1024 * b) 1024 0) := by
  have hbefore := h.free_before hkeeps hb
  have hdata : g.IsData b := h₀.stored.safe.free_mem b hbefore
  have hthree := hdata.three_lt
  have hother : ∀ s, U s → s.target m (inodeAt i) ≠ b := ((h.free_iff b hb.1).1 hb.2).2
  have hchanges : ChangesOnly (blockBytes b) m (fill m (1024 * b) 1024 0) :=
    fill_changesOnly m _ 1024 0
  have hout : ∀ s, (fileTree g i hi).InPlace U s → ∀ a ∈ blockBytes b,
      a ∉ (fileTree g i hi).word m s := fun s hs a ha hmem =>
    FileTree.word_block h.spans hs hdata (fun p hparent => hother p (hs.2 p hparent)) hmem ha
  have houtU : ∀ s, U s → ∀ a ∈ blockBytes b, a ∉ (fileTree g i hi).word m s :=
    fun s hs => hout s (h.spans.inPlace s hs)
  have hsame : ∀ s : Slot, U s →
      s.target (fill m (1024 * b) 1024 0) (inodeAt i) = s.target m (inodeAt i) :=
    fun s hs => h.spans.target_eq hchanges houtU hs
  refine ⟨h.spans.frame hchanges houtU, h.changes.trans (hchanges.mono ?_), ?_, ?_, ?_, ?_, ?_⟩
  · exact fun a ha => .inr (.inr (.inl ⟨b, hbefore.1, hbefore.2, ha⟩))
  · exact fun s hs huse => (hsame s hs).trans (h.kept s hs huse)
  · intro s hs huse
    rw [hsame s hs]
    exact h.fresh s hs huse
  · intro s hs huse hnot a ha
    rw [hsame s hs] at ha
    rw [hchanges a (not_mem_blockBytes_of_ne (hother s hs) ha)]
    exact h.erased s hs huse hnot a ha
  · intro c hc
    have hblocks := g.nblocks_le
    rw [bitvectorTest_changesOnly hchanges (fun a ha => not_mem_blockBytes_of_ne (by omega) ha)
      (by omega), h.free_iff c hc]
    refine and_congr_right fun _ => forall_congr' fun s => forall_congr' fun hs => ?_
    rw [hsame s hs]
  · intro s hs hnot
    exact (h.spans.target_eq_of_inPlace hchanges houtU hs (hout s hs)).trans (h.tidy s hs hnot)

end Reshaped

/-! ## Rounds of `add_block` -/

/-- The number of blocks that are allocated for the blocks from `n` on, up to `k`. -/
def needed (n k : Nat) : Nat := ∑ j ∈ Finset.Ico n k, Slot.missing j

theorem needed_self (n : Nat) : needed n n = 0 := by
  rw [needed, Finset.Ico_self, Finset.sum_empty]

theorem needed_succ (h : n ≤ k) : needed n (k + 1) = needed n k + Slot.missing k :=
  Finset.sum_Ico_succ_top h _

theorem needed_mono (h : j ≤ k) : needed n j ≤ needed n k :=
  Finset.sum_le_sum_of_subset (Finset.Ico_subset_Ico_right h)

/-- The pointers of the block are where `ospfs_inode_blockno` looks for them. -/
def Addressed (n : Nat) : Prop := n < 266 ∨ 522 ≤ n

/-- The file of `m₀` has grown to `n` blocks. -/
structure Enlarged (hi : i < g.ninodes) (own : Nat → Prop) (m₀ : Memory) (n : Nat)
    (m : Memory) : Prop where
  reshaped : Reshaped hi own m₀ (·.InUse n) m
  le : blockCount m₀ i ≤ n
  size : oiSize m (inodeAt i) = oiSize m₀ (inodeAt i) + 1024 * (n - blockCount m₀ i)
  card : (freeBlocks g m).card + needed (blockCount m₀ i) n = (freeBlocks g m₀).card

namespace Enlarged

variable {hi : i < g.ninodes}

theorem refl (h : WellFormed g m own i) : Enlarged h.lt own m (blockCount m i) m where
  reshaped := .refl h
  le := le_rfl
  size := by rw [Nat.sub_self, Nat.mul_zero, Nat.add_zero]
  card := by rw [needed_self, Nat.add_zero]

theorem size_le (h : Enlarged hi own m₀ n m) (h₀ : WellFormed g m₀ own i) :
    oiSize m (inodeAt i) ≤ 16777216 := by
  have hlimit := h.reshaped.le_nblocks
  have hlimit₀ := h₀.size_lt
  have hsize := h.size
  omega

theorem count (h : Enlarged hi own m₀ n m) (h₀ : WellFormed g m₀ own i) :
    blockCount m i = n := by
  have hlimit := h.size_le h₀
  have hsize := h.size
  have hle := h.le
  unfold blockCount ospfsSize2nblocks at *
  omega

theorem wellFormed (h : Enlarged hi own m₀ n m) (h₀ : WellFormed g m₀ own i) :
    WellFormed g m own i :=
  h.reshaped.wellFormed h₀ (h.count h₀) ((h.size_le h₀).trans (by decide))

/-- One round. -/
theorem succ (h : Enlarged hi own m₀ n m) (h₀ : WellFormed g m₀ own i) (hn : Addressed n)
    (hroom : needed (blockCount m₀ i) (n + 1) ≤ (freeBlocks g m₀).card) :
    ∃ m', addBlock m (inodeAt i) = (none, m') ∧ Enlarged hi own m₀ (n + 1) m' := by
  have hcard := h.card
  have hlimit := h.size_le h₀
  have hle := h.le
  rw [needed_succ hle] at hroom
  obtain ⟨m', hadd, hextended⟩ := h.reshaped.addBlock h₀ (h.count h₀) hle hn (by omega)
  refine ⟨m', hadd, hextended.reshaped, hle.trans (Nat.le_succ n), ?_, ?_⟩
  · rw [hextended.size, Nat.mod_eq_of_lt (by omega), h.size]
    omega
  · rw [needed_succ hle, ← hcard, ← hextended.card]
    omega

/-- The rounds up to `n + d` blocks. -/
theorem growLoop (h : Enlarged hi own m₀ n m) (h₀ : WellFormed g m₀ own i) {newSize d : Nat}
    (hnew : n + d ≤ ospfsSize2nblocks newSize) (hplaced : ∀ j, n ≤ j → j < n + d → Addressed j)
    (hroom : needed (blockCount m₀ i) (n + d) ≤ (freeBlocks g m₀).card) (rounds counter : Nat) :
    ∃ m', Ospfs.growLoop (inodeAt i) newSize (rounds + d) counter m =
      Ospfs.growLoop (inodeAt i) newSize rounds (counter + d) m' ∧
        Enlarged hi own m₀ (n + d) m' := by
  induction d generalizing rounds with
  | zero => exact ⟨m, rfl, h⟩
  | succ d ih =>
      obtain ⟨m₁, hrun, h₁⟩ := ih (by omega) (fun j hj hlt => hplaced j hj (by omega))
        ((needed_mono (Nat.le_succ _)).trans hroom) (rounds + 1)
      obtain ⟨m₂, hadd, h₂⟩ := h₁.succ h₀ (hplaced (n + d) (by omega) (by omega)) hroom
      have hcount := h₁.count h₀
      rw [blockCount_eq] at hcount
      refine ⟨m₂, ?_, h₂⟩
      rw [show rounds + (d + 1) = rounds + 1 + d by omega, hrun, Ospfs.growLoop,
        if_pos (by omega), hadd]
      rfl

end Enlarged

/-! ## Rounds of `remove_block` -/

section

variable {hi : i < g.ninodes}

/-- The blocks from `n` on are removed again. -/
theorem Reshaped.rollBack (h₀ : WellFormed g m₀ own i) {d size : Nat}
    (h : Reshaped hi own m₀ (·.InUse (n + d)) m)
    (hsize : oiSize m (inodeAt i) = size + 1024 * d) (hcount : ospfsSize2nblocks size = n)
    (hlimit : size ≤ 8388608) (hn : d = 0 ∨ n + d ≤ 11 ∨ 522 ≤ n) :
    Reshaped hi own m₀ (·.InUse n) (Ospfs.rollBack (inodeAt i) d m) ∧
      oiSize (Ospfs.rollBack (inodeAt i) d m) (inodeAt i) = size := by
  induction d generalizing m with
  | zero => exact ⟨h, hsize⟩
  | succ d ih =>
      have hbound := h.le_nblocks
      have hcount' : blockCount m i = n + d + 1 := by
        rw [blockCount_of_size hsize]
        unfold ospfsSize2nblocks at hcount ⊢
        omega
      have hn' : n + d + 1 ≤ 11 ∨ 523 ≤ n + d + 1 := by omega
      obtain ⟨m', hremove, hreduced⟩ := h.removeBlock h₀ hcount' hn'
      have hsize' : oiSize m' (inodeAt i) = size + 1024 * d := by
        rw [hreduced.size, hsize]
        omega
      rw [Ospfs.rollBack, hremove]
      exact ih hreduced.reshaped hsize' (by omega)

end

/-! ## A failed growth -/

/-- Nothing of the file, of its blocks and of the bitmap has changed. -/
structure Restored (g : Geometry) (i : Nat) (m m' : Memory) : Prop where
  preserved : Preserved g i m m'
  contents : ∀ off < oiSize m (inodeAt i), content m' i off = content m i off

/-- `change_size` reports that the disk is full, and nothing has changed. -/
structure RollsBack (g : Geometry) (i newSize : Nat) (m : Memory) : Prop where
  enospc : (changeSize m (inodeAt i) newSize).1 = some .enospc
  restored : Restored g i m (changeSize m (inodeAt i) newSize).2

theorem Reshaped.blockByte_eq (h₀ : WellFormed g m₀ own i)
    (h : Reshaped h₀.lt own m₀ (·.InUse n) m) {off : Nat} (hoff : off < 1024 * n)
    (hoff₀ : off < 1024 * blockCount m₀ i) : blockByte m i off = blockByte m₀ i off := by
  have huse := h₀.ofIndex_inUse (k := off / 1024) (by omega)
  have hlimit := h.le_nblocks
  have hnumber : blockNumber m i off = blockNumber m₀ i off :=
    h.kept _ (Slot.ofIndex_inUse (by omega) (hlimit.trans (by decide))) huse
  unfold blockByte blockAddress
  rw [hnumber]
  exact h.changes _ (h₀.stored.blockAddress_not_mem_reach h₀.lt h₀.owner hoff₀)

/-- The bytes below both sizes are the same. -/
theorem Reshaped.content_eq (h₀ : WellFormed g m₀ own i)
    (h : Reshaped h₀.lt own m₀ (·.InUse n) m) {off : Nat} (hoff : off < oiSize m (inodeAt i))
    (hoff' : off < 1024 * n) (hoff₀ : off < oiSize m₀ (inodeAt i)) :
    content m i off = content m₀ i off := by
  have hfile := h₀.stored.file i h₀.owner
  have hftype : oiFtype m (inodeAt i) = oiFtype m₀ (inodeAt i) :=
    h₀.stored.field_of_reach h₀.lt h.changes (by decide) (by decide)
  rw [content_eq_block (hftype ▸ hfile.ftype) hoff, content_eq_block hfile.ftype hoff₀]
  exact h.blockByte_eq h₀ hoff' (hfile.lt_blocks hoff₀)

theorem Reshaped.restored (h₀ : WellFormed g m₀ own i)
    (h : Reshaped h₀.lt own m₀ (·.InUse (blockCount m₀ i)) m)
    (hsize : oiSize m (inodeAt i) = oiSize m₀ (inodeAt i)) : Restored g i m₀ m := by
  refine ⟨⟨hsize, fun s hvalid hparent => ?_, fun c hc => ?_⟩, fun off hoff => ?_⟩
  · by_cases huse : s.InUse (blockCount m₀ i)
    · exact h.kept s huse huse
    · exact (h.tidy s ⟨hvalid, hparent⟩ huse).trans (h₀.tidy s hvalid hparent huse).symm
  · have hother : bitvectorTest m₀ freemap c = true → ∀ s : Slot, s.InUse (blockCount m₀ i) →
        s.target m₀ (inodeAt i) ≠ c := fun hbit => (((Reshaped.refl h₀).free_iff c hc).1 hbit).2
    rw [Bool.eq_iff_iff, h.free_iff c hc]
    constructor
    · rintro ⟨hbit | ⟨s, hs, heq⟩, hnot⟩
      · exact hbit
      · exact absurd ((h.kept s hs hs).trans heq) (hnot s hs)
    · refine fun hbit => ⟨.inl hbit, fun s hs => ?_⟩
      rw [h.kept s hs hs]
      exact hother hbit s hs
  · exact h.content_eq h₀ (hoff.trans_eq hsize.symm)
      ((h₀.stored.file i h₀.owner).lt_blocks hoff) hoff

/-- A round fails and leaves the file as it was, and the rounds before can be undone. -/
theorem Enlarged.rollsBack (h₀ : WellFormed g m₀ own i) (h : Enlarged h₀.lt own m₀ k m)
    {newSize : Nat} (hnew : k < ospfsSize2nblocks newSize)
    (hrun : Ospfs.growLoop (inodeAt i) newSize maxRounds 0 m₀ =
      Ospfs.growLoop (inodeAt i) newSize (maxRounds - (k - blockCount m₀ i))
        (k - blockCount m₀ i) m)
    (hadd : addBlock m (inodeAt i) = (some .enospc, m'))
    (hreshaped : Reshaped h₀.lt own m₀ (·.InUse k) m')
    (hsize : oiSize m' (inodeAt i) = oiSize m (inodeAt i))
    (hundo : k = blockCount m₀ i ∨ k ≤ 11 ∨ 522 ≤ blockCount m₀ i) :
    RollsBack g i newSize m₀ := by
  have hlimit := h.reshaped.le_nblocks
  have hle := h.le
  have hcount := h.count h₀
  rw [blockCount_eq] at hcount
  have hrounds : maxRounds - (k - blockCount m₀ i) = maxRounds - (k - blockCount m₀ i) - 1 + 1 := by
    unfold maxRounds
    omega
  have hgrow : Ospfs.growLoop (inodeAt i) newSize maxRounds 0 m₀ =
      (some .enospc, k - blockCount m₀ i, m') := by
    rw [hrun, hrounds, Ospfs.growLoop, if_pos (by omega), hadd]
  have hk : blockCount m₀ i + (k - blockCount m₀ i) = k := by omega
  have hundo' : k - blockCount m₀ i = 0 ∨ blockCount m₀ i + (k - blockCount m₀ i) ≤ 11 ∨
      522 ≤ blockCount m₀ i := by omega
  obtain ⟨hback, hsize'⟩ := Reshaped.rollBack h₀ (hk.symm ▸ hreshaped) (hsize.trans h.size) rfl
    h₀.size_lt hundo'
  have hsame : setOiSize (rollBack (inodeAt i) (k - blockCount m₀ i) m') (inodeAt i)
      (oiSize m₀ (inodeAt i)) = rollBack (inodeAt i) (k - blockCount m₀ i) m' := by
    rw [← hsize']
    exact store32_load32 _ (inodeAt i)
  have hchange : changeSize m₀ (inodeAt i) newSize =
      (some .enospc, rollBack (inodeAt i) (k - blockCount m₀ i) m') := by
    rw [changeSize_of_failed hgrow, shrinkLoop_done (by rw [hsize']), hsame]
  constructor
  · rw [hchange]
  · rw [hchange]
    exact hback.restored h₀ hsize'

/-- Block `k` is the first one for which there are not enough free blocks. -/
structure StopsAt (g : Geometry) (m : Memory) (i k : Nat) : Prop where
  le : blockCount m i ≤ k
  room : needed (blockCount m i) k ≤ (freeBlocks g m).card
  short : (freeBlocks g m).card < needed (blockCount m i) (k + 1)

theorem exists_stopsAt (h : (freeBlocks g m).card < needed (blockCount m i) n) :
    ∃ k < n, StopsAt g m i k := by
  induction n with
  | zero =>
      rw [needed, Finset.Ico_eq_empty_of_le (Nat.zero_le _), Finset.sum_empty] at h
      exact absurd h (Nat.not_lt_zero _)
  | succ n ih =>
      by_cases hroom : (freeBlocks g m).card < needed (blockCount m i) n
      · obtain ⟨k, hk, hstop⟩ := ih hroom
        exact ⟨k, hk.trans (Nat.lt_succ_self n), hstop⟩
      · refine ⟨n, Nat.lt_succ_self n, ?_, not_lt.1 hroom, h⟩
        by_contra hlt
        rw [needed, Finset.Ico_eq_empty_of_le (by omega), Finset.sum_empty] at h
        exact absurd h (Nat.not_lt_zero _)

/-- The rounds before block `k`. -/
theorem StopsAt.growLoop (h : StopsAt g m i k) (h₀ : WellFormed g m own i) {newSize : Nat}
    (hnew : k < ospfsSize2nblocks newSize)
    (haddressed : ∀ j, blockCount m i ≤ j → j < k → Addressed j) :
    ∃ m', Ospfs.growLoop (inodeAt i) newSize maxRounds 0 m =
      Ospfs.growLoop (inodeAt i) newSize (maxRounds - (k - blockCount m i))
        (k - blockCount m i) m' ∧ Enlarged h₀.lt own m k m' := by
  have hle := h.le
  have hk : blockCount m i + (k - blockCount m i) = k := by omega
  have hrounds : maxRounds - (k - blockCount m i) + (k - blockCount m i) = maxRounds := by
    have hmax : ospfsSize2nblocks newSize ≤ maxRounds := by
      unfold ospfsSize2nblocks maxRounds
      omega
    omega
  have hlt : blockCount m i + (k - blockCount m i) ≤ ospfsSize2nblocks newSize := by omega
  obtain ⟨m', hrun, henlarged⟩ := (Enlarged.refl h₀).growLoop h₀ hlt
    (fun j hj hlt => haddressed j hj (by omega))
    (by rw [hk]; exact h.room) (maxRounds - (k - blockCount m i)) 0
  rw [hrounds, Nat.zero_add] at hrun
  exact ⟨m', hrun, hk ▸ henlarged⟩

/-- What is undone is complete. -/
def Undone (n k free : Nat) : Prop :=
  k ≤ 10 ∨ free = needed n k ∧ (k = n ∨ 522 ≤ n) ∧ ¬ (10 < k ∧ k < 266)

theorem StopsAt.rollsBack (h : StopsAt g m i k) (h₀ : WellFormed g m own i) {newSize : Nat}
    (hnew : k < ospfsSize2nblocks newSize)
    (hundone : Undone (blockCount m i) k (freeBlocks g m).card) : RollsBack g i newSize m := by
  have hle := h.le
  have haddressed : ∀ j, blockCount m i ≤ j → j < k → Addressed j := fun j hj hlt => by
    unfold Undone at hundone
    unfold Addressed
    omega
  obtain ⟨m₁, hrun, h₁⟩ := h.growLoop h₀ hnew haddressed
  have hcount := h₁.count h₀
  have hcard := h₁.card
  have hwell := h₁.wellFormed h₀
  have hshort := h.short
  rw [needed_succ hle] at hshort
  by_cases hfull : (freeBlocks g m₁).card = 0
  · have hnot : ¬ (10 < blockCount m₁ i ∧ blockCount m₁ i < 266) := by
      unfold Undone at hundone
      omega
    have hadd := addBlock_full hwell.stored.fits (hwell.stored.file i hwell.owner).indirect hfull
      hnot
    refine h₁.rollsBack h₀ hnew hrun hadd h₁.reshaped rfl ?_
    unfold Undone at hundone
    omega
  · have hten : k = 10 ∧ (freeBlocks g m₁).card = 1 := by
      have hmissing : k < 10 → Slot.missing k = 1 := fun hlt => by
        unfold Slot.missing
        split_ifs <;> omega
      have hmissing' : Slot.missing 10 = 2 := rfl
      have hk : k ≤ 10 := by
        rcases hundone with hk | ⟨heq, -⟩
        · exact hk
        · omega
      rcases Nat.lt_or_eq_of_le hk with hlt | rfl
      · have hone := hmissing hlt
        omega
      · omega
    obtain ⟨b, hb, hadd⟩ := addBlock_last_indirect hwell (hcount.trans hten.1) hten.2
    have hfree := (mem_freeBlocks own).1 hb
    have hdata : g.IsData b := hwell.stored.safe.free_mem b hfree
    refine h₁.rollsBack h₀ hnew hrun hadd
      (h₁.reshaped.erase h₀ (fun s hs => hs.mono hle) hfree) ?_ (by omega)
    refine (fill_changesOnly m₁ _ 1024 0).load32 fun t ht hmem => ?_
    have hfirst := inode_le_of_isData hdata h₀.lt
    simp only [Set.mem_Ico] at hmem
    omega

end Cs111Labs.Ospfs
