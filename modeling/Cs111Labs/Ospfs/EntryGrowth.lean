import Cs111Labs.Ospfs.Accounting
import Cs111Labs.Ospfs.AddBlock

/-!
# Growing a directory by one entry

How `add_block` ends on disks with few free blocks, and what
`create_blank_direntry` leaves on the disk when it succeeds and when it fails.
-/

namespace Cs111Labs.Ospfs

open Foundation Memory

variable {g : Geometry} {m m' : Memory} {own : Nat → Prop} {a b d i n : Nat}

/-- A block of pointers is allocated before the block itself. -/
def NeedsPointers (n : Nat) : Prop := n = 10 ∨ n = 266 ∨ 522 ≤ n ∧ (n - 266) % 256 = 0

/-- `add_block` fails; below the indirect block a full disk is not noticed. -/
def OutOfBlocks (g : Geometry) (m : Memory) (i : Nat) : Prop :=
  (freeBlocks g m).card = 0 ∧ ¬ (10 < blockCount m i ∧ blockCount m i < 266) ∨
    (freeBlocks g m).card = 1 ∧ NeedsPointers (blockCount m i)

/-- `add_block` fails after it has changed the disk. -/
def LeavesTraces (g : Geometry) (m : Memory) (i : Nat) : Prop :=
  (freeBlocks g m).card = 1 ∧ NeedsPointers (blockCount m i) ∧
    (blockCount m i = 10 → ∃ b ∈ freeBlocks g m, ∃ a ∈ blockBytes b, m a ≠ 0)

/-! ## A full disk -/

theorem addBlock_full (hfits : g.Fits m)
    (hindirect : blockCount m i ≤ 10 → oiIndirect m (inodeAt i) = 0)
    (hfull : (freeBlocks g m).card = 0) (hn : ¬ (10 < blockCount m i ∧ blockCount m i < 266)) :
    addBlock m (inodeAt i) = (some .enospc, m) := by
  have halloc := allocateBlock_of_full hfits hfull
  by_cases hten : blockCount m i < 10
  · rw [addBlock_of_lt hten]
    simp only [addDirect, halloc, if_true]
  · by_cases hsingle : blockCount m i < 266
    · rw [(addBlock_of_single (by omega) hsingle).1]
      simp only [addSingle, if_pos (hindirect (by omega)), halloc, if_true]
    · have hdouble : addBlock m (inodeAt i) = addDouble m (inodeAt i) (blockCount m i) := by
        by_cases hfirst : blockCount m i < 522
        · exact (addBlock_of_first (by omega) hfirst).1
        · exact (addBlock_of_double (by omega)).1
      rw [hdouble]
      simp only [addDouble, halloc, if_true, ne_eq, not_true_eq_false, false_and, if_false,
        or_self, ite_self]

/-- The block is the boot sector, which is already linked and empty. -/
theorem addBlock_unnoticed (hfits : g.Fits m) (hboot : ∀ a < 1024, m a = 0)
    (hfull : (freeBlocks g m).card = 0) (hn : 10 < blockCount m i) (hn' : blockCount m i < 266)
    (hind : oiIndirect m (inodeAt i) ≠ 0)
    (hzero : (Slot.single (blockCount m i - 10)).target m (inodeAt i) = 0) :
    addBlock m (inodeAt i) = grow m (inodeAt i) := by
  have halloc := allocateBlock_of_full hfits hfull
  change load32 m (ospfsBlock (oiIndirect m (inodeAt i)) + 4 * (blockCount m i - 10)) = 0 at hzero
  have hstore : store32 m (ospfsBlock (oiIndirect m (inodeAt i)) + 4 * (blockCount m i - 10)) 0 =
      m := by
    have hsame := store32_load32 m
      (ospfsBlock (oiIndirect m (inodeAt i)) + 4 * (blockCount m i - 10))
    rwa [hzero] at hsame
  have herase : eraseBlock m 0 = m := fill_eq_self fun a ha => hboot a (Set.mem_Ico.1 ha).2
  obtain ⟨hadd, hoffset⟩ := addBlock_of_single (m := m) (i := i) (by omega) hn'
  rw [hadd]
  simp only [addSingle, if_neg hind, halloc, ne_eq, not_true_eq_false, and_false, if_false,
    hoffset, hstore, herase]

theorem addBlock_boot (h : WellFormed g m own i) (hfull : (freeBlocks g m).card = 0)
    (hn : 10 < blockCount m i) (hn' : blockCount m i < 266) :
    addBlock m (inodeAt i) = grow m (inodeAt i) := by
  have hindirect : Slot.indirect.InUse (blockCount m i) := hn
  have hdata : g.IsData (oiIndirect m (inodeAt i)) := h.isData hindirect
  have hthree := hdata.three_lt
  refine addBlock_unnoticed h.stored.fits h.stored.boot hfull hn hn' (by omega) ?_
  refine h.tidy (.single (blockCount m i - 10)) (by simp only [Slot.Valid]; omega) ?_ ?_
  · intro p hparent
    cases hparent
    exact hindirect
  · simp only [Slot.InUse]
    omega

/-! ## The last free block -/

theorem Attached.unused {hi : i < g.ninodes} {m₀ : Memory} {U : Slot → Prop} {s : Slot}
    (hlink : Attached hi own m₀ U s b m m') (h₀ : WellFormed g m₀ own i)
    (hlast : (freeBlocks g m).card = 1) : allocateBlock m' = (0, m') := by
  have hcard := hlink.card
  exact allocateBlock_of_full (hlink.reshaped.fits h₀) (by omega)

theorem Attached.free {hi : i < g.ninodes} {m₀ : Memory} {U : Slot → Prop} {s : Slot}
    (hlink : Attached hi own m₀ U s b m m') (hfits : g.Fits m) : (ledger g m own).Free b := by
  have halloc := hlink.alloc
  rcases allocateBlock_cases own hfits with ⟨hfull, -⟩ | ⟨c, hc, hfound⟩
  · rw [hfull] at halloc
    exact absurd (congrArg Prod.fst halloc).symm hlink.pos
  · rw [hfound] at halloc
    have heq : c = b := congrArg Prod.fst halloc
    rwa [← heq]

/-- The indirect block is given back, but the block was erased. -/
theorem addBlock_last_indirect (h : WellFormed g m own i) (hcount : blockCount m i = 10)
    (hlast : (freeBlocks g m).card = 1) :
    ∃ b ∈ freeBlocks g m,
      addBlock m (inodeAt i) = (some .enospc, fill m (1024 * b) 1024 0) := by
  have hr := Reshaped.refl h
  rw [hcount] at hr
  have hplace : (fileTree g i h.lt).InPlace (·.InUse 10) .indirect := ⟨trivial, nofun⟩
  have hunused : ¬ Slot.indirect.InUse 10 := Nat.lt_irrefl 10
  have hkeeps : ∀ s : Slot, s.InUse (blockCount m i) → s.InUse 10 := fun s => .mono hcount.le
  have hind : oiIndirect m (inodeAt i) = 0 := hr.tidy _ hplace hunused
  obtain ⟨b, m₁, hlink⟩ := hr.exists_attached h hkeeps hplace hunused (by omega)
  have hfull := hlink.unused h hlast
  have hb := hlink.isData
  have hfree := hlink.free h.stored.fits
  refine ⟨b, (mem_freeBlocks own).2 hfree, ?_⟩
  obtain ⟨hadd, hoffset⟩ := addBlock_of_single (m := m) (i := i) (by omega) (by omega)
  have hlt : b < 2 ^ 32 := hb.lt.trans (by decide)
  have hm₁ : link m (inodeAt i + 56) b = m₁ := hlink.eq.symm
  have hfits : g.Fits (link m (inodeAt i + 56) b) := by
    rw [hm₁]
    exact hlink.reshaped.fits h
  have hinode : ∀ x ∈ Set.Ico (inodeAt i + 56) (inodeAt i + 56 + 4), x ∈ inodeBytes i :=
    fun x hx => by
      simp only [inodeBytes, Set.mem_Ico] at *
      omega
  have hblock : ∀ x ∈ Set.Ico (inodeAt i + 56) (inodeAt i + 56 + 4), x ∉ blockBytes b :=
    fun x hx => not_mem_blockBytes_of_inode hb h.lt (hinode x hx)
  rw [hadd, addSingle_new hind hlink.pos hlt hlink.alloc]
  dsimp only
  rw [hm₁, hfull, if_pos rfl, ← hm₁, ← unlink_link hfits hb hfree.2 hind
    (fun x hx hmem => not_mem_bitmap_of_inode hmem (hinode x hx)) hblock]
  unfold unlink setOiIndirect
  rw [load32_link hb hblock]

/-- The doubly indirect block is given back, but its number stays in the inode. -/
theorem addBlock_last_first (h : WellFormed g m own i) (hcount : blockCount m i = 266)
    (hlast : (freeBlocks g m).card = 1) :
    ∃ m', addBlock m (inodeAt i) = (some .enospc, m') ∧
      oiSize m' (inodeAt i) = oiSize m (inodeAt i) ∧
      oiIndirect2 m' (inodeAt i) ≠ oiIndirect2 m (inodeAt i) := by
  have hr := Reshaped.refl h
  rw [hcount] at hr
  have hplace : (fileTree g i h.lt).InPlace (·.InUse 266) .indirect2 := ⟨trivial, nofun⟩
  have hunused : ¬ Slot.indirect2.InUse 266 := Nat.lt_irrefl 266
  have hkeeps : ∀ s : Slot, s.InUse (blockCount m i) → s.InUse 266 := fun s => .mono hcount.le
  have hind : oiIndirect2 m (inodeAt i) = 0 := hr.tidy _ hplace hunused
  obtain ⟨b, m₁, hlink⟩ := hr.exists_attached h hkeeps hplace hunused (by omega)
  have hfull := hlink.unused h hlast
  have hb := hlink.isData
  have hm₁ : link m (inodeAt i + 60) b = m₁ := hlink.eq.symm
  have hfits := hlink.reshaped.fits h
  have hgive := freeBlock_changesOnly (m := m₁) hfits (.inr hb)
  have hkeep : ∀ k < 64, k + 4 ≤ 64 →
      load32 (freeBlock m₁ b) (inodeAt i + k) = load32 m₁ (inodeAt i + k) := fun k hk hk' =>
    hgive.load32 fun t ht hmem => not_mem_bitmap_of_inode (i := i) hmem (by
      simp only [inodeBytes, Set.mem_Ico]
      omega)
  obtain ⟨hadd, hindir, hdirect⟩ := addBlock_of_first (m := m) (i := i) (by omega) (by omega)
  rw [hcount] at hadd hdirect
  refine ⟨freeBlock m₁ b, ?_, (hkeep 0 (by decide) (by decide)).trans hlink.size, fun heq => ?_⟩
  · have halloc := hlink.alloc
    rw [hadd, addDouble]
    unfold link at hm₁
    simp only [if_pos hind, halloc, setOiIndirect2, hm₁, hdirect, hfull, hlink.pos,
      ne_eq, not_true_eq_false, not_false_eq_true, and_false, true_or, if_true, if_false,
      Nat.reduceSub, OfNat.ofNat_ne_zero]
  · have hset : oiIndirect2 m₁ (inodeAt i) = b := by
      rw [← hm₁]
      refine load32_link hb fun x hx => not_mem_blockBytes_of_inode hb h.lt ?_
      simp only [inodeBytes, Set.mem_Ico] at *
      omega
    have hset' := hkeep 60 (by decide) (by decide)
    exact hlink.pos (hset.symm.trans (hset'.symm.trans (heq.trans hind)))

/-- The indirect block stays linked below the doubly indirect block. -/
theorem addBlock_last_outer (h : WellFormed g m own i) (hn : 522 ≤ blockCount m i)
    (hoffset : (blockCount m i - 266) % 256 = 0) (hlast : (freeBlocks g m).card = 1) :
    ∃ m', addBlock m (inodeAt i) = (some .enospc, m') ∧
      oiSize m' (inodeAt i) = oiSize m (inodeAt i) ∧
      (Slot.outer ((blockCount m i - 266) / 256)).target m' (inodeAt i) ≠
        (Slot.outer ((blockCount m i - 266) / 256)).target m (inodeAt i) := by
  have hr := Reshaped.refl h
  have hlimit := hr.le_nblocks
  have hindirect2 : Slot.indirect2.InUse (blockCount m i) := by
    simp only [Slot.InUse]
    omega
  have hunused : ¬ (Slot.outer ((blockCount m i - 266) / 256)).InUse (blockCount m i) :=
    fun huse => by
      have hlow := huse.2
      omega
  have hind : oiIndirect2 m (inodeAt i) ≠ 0 := by
    have hdata : g.IsData (oiIndirect2 m (inodeAt i)) := hr.isData hindirect2
    have hthree := hdata.three_lt
    omega
  have hplace : (fileTree g i h.lt).InPlace (·.InUse (blockCount m i))
      (.outer ((blockCount m i - 266) / 256)) := by
    refine ⟨(by omega : (blockCount m i - 266) / 256 < 256), fun p hparent => ?_⟩
    cases hparent
    exact hindirect2
  obtain ⟨b, m₁, hlink⟩ := hr.exists_attached h (fun s hs => hs) hplace hunused (by omega)
  have hfull := hlink.unused h hlast
  obtain ⟨hadd, hindir, hdirect⟩ := addBlock_of_double (m := m) (i := i) hn
  have hq : oiIndirect2 (bitvectorClear m freemap b) (inodeAt i) = oiIndirect2 m (inodeAt i) :=
    hr.target_clear hindirect2 hlink.isData
  have hm₁ : link m (ospfsBlock (oiIndirect2 m (inodeAt i)) +
      4 * ((blockCount m i - 266) / 256)) b = m₁ := hlink.eq.symm
  have hnoblock : freeBlock m₁ 0 = m₁ := if_neg fun hzero => by
    rw [(hlink.reshaped.fits h).firstinob] at hzero
    omega
  refine ⟨m₁, ?_, hlink.size, fun heq => ?_⟩
  · have halloc := hlink.alloc
    rw [hadd, addDouble]
    unfold link at hm₁
    simp only [if_neg hind, halloc, hdirect, hoffset, if_true, hindir, hq, hm₁,
      hfull, hlink.pos, ne_eq, not_true_eq_false, not_false_eq_true, false_and, or_true,
      if_false, hnoblock]
  · rw [hr.tidy _ hplace hunused] at heq
    have hthree := (hlink.reshaped.isData (.inr rfl)).three_lt
    omega

/-! ## Both ends of `add_block` -/

theorem addBlock_fails (h : WellFormed g m own i) (hout : OutOfBlocks g m i) :
    ∃ m', addBlock m (inodeAt i) = (some .enospc, m') ∧
      oiSize m' (inodeAt i) = oiSize m (inodeAt i) ∧ (m' = m ↔ ¬ LeavesTraces g m i) := by
  rcases hout with ⟨hfull, hn⟩ | ⟨hlast, hn⟩
  · refine ⟨m, addBlock_full h.stored.fits (h.stored.file i h.owner).indirect hfull hn, rfl,
      iff_of_true rfl fun htraces => ?_⟩
    have hcard := htraces.1
    omega
  · have hother : blockCount m i ≠ 10 → LeavesTraces g m i := fun hne =>
      ⟨hlast, hn, fun heq => absurd heq hne⟩
    rcases hn with hten | hfirst | ⟨hlarge, hoffset⟩
    · obtain ⟨b, hb, hadd⟩ := addBlock_last_indirect h hten hlast
      have hdata : g.IsData b := h.stored.safe.free_mem b ((mem_freeBlocks own).1 hb)
      refine ⟨_, hadd, ?_, ?_⟩
      · refine (fill_changesOnly m _ 1024 0).load32 fun t ht hmem => ?_
        have hfirst := inode_le_of_isData hdata h.lt
        simp only [Set.mem_Ico] at hmem
        omega
      · constructor
        · rintro heq ⟨-, -, htraces⟩
          obtain ⟨c, hc, a, ha, hne⟩ := htraces hten
          obtain rfl : c = b := Finset.card_le_one.1 hlast.le c hc b hb
          rw [← heq] at hne
          exact hne (if_pos (Set.mem_Ico.1 ha))
        · intro hclean
          refine fill_eq_self fun a ha => ?_
          by_contra hne
          exact hclean ⟨hlast, .inl hten, fun _ => ⟨b, hb, a, ha, hne⟩⟩
    · obtain ⟨m', hadd, hsize, hne⟩ := addBlock_last_first h hfirst hlast
      exact ⟨m', hadd, hsize, iff_of_false (fun heq => hne (by rw [heq]))
        (not_not_intro (hother (by omega)))⟩
    · obtain ⟨m', hadd, hsize, hne⟩ := addBlock_last_outer h hlarge hoffset hlast
      exact ⟨m', hadd, hsize, iff_of_false (fun heq => hne (by rw [heq]))
        (not_not_intro (hother (by omega)))⟩

/-- The file has one more block, where `ospfs_inode_blockno` finds a block or nothing. -/
structure Furnished (g : Geometry) (i : Nat) (m m' : Memory) : Prop where
  size : oiSize m' (inodeAt i) = oiSize m (inodeAt i) + 1024
  target : ∀ v, (Slot.ofIndex (blockCount m i)).target (setOiSize m' (inodeAt i) v) (inodeAt i) = 0 ∨
    g.IsData ((Slot.ofIndex (blockCount m i)).target (setOiSize m' (inodeAt i) v) (inodeAt i))
  frame : ∀ a < 1024 * g.firstData, a ∉ Set.Ico 1024 1028 → a ∉ blockBytes 2 →
    a ∉ pointerBytes i → m' a = m a

theorem WellFormed.size_lt (h : WellFormed g m own i) :
    oiSize m (inodeAt i) ≤ 8388608 := by
  have hlimit := (Reshaped.refl h).le_nblocks
  have hlt : oiSize m (inodeAt i) < 2 ^ 32 := load32_lt m _
  have hmax := (h.stored.file i h.owner).size_le
  unfold Slot.maxfileblks at hmax
  unfold blockCount ospfsSize2nblocks at hlimit
  omega

theorem setOiSize_setOiSize (m : Memory) (i v w : Nat) :
    setOiSize (setOiSize m (inodeAt i) v) (inodeAt i) w = setOiSize m (inodeAt i) w :=
  store32_store32 m _ v w

theorem Misplaced.furnished (h : WellFormed g m own i) (hn : 266 ≤ blockCount m i)
    (hn' : blockCount m i < 522) (hm : Misplaced g i m m') :
    Furnished g i m (grow m' (inodeAt i)).2 := by
  have hlimit := h.size_lt
  have hinode : 3072 ≤ inodeAt i := Nat.le_add_right _ _
  have hindex : Slot.ofIndex (blockCount m i) = .double 0 (blockCount m i - 266) := by
    unfold Slot.ofIndex
    rw [if_neg (by omega), if_neg (by omega), Nat.div_eq_of_lt (by omega),
      Nat.mod_eq_of_lt (by omega)]
  refine ⟨?_, fun v => .inl ?_, fun a ha hsuper hbitmap hpointer => ?_⟩
  · refine (load32_store32_same m' _ _).trans ?_
    rw [hm.size, Nat.mod_eq_of_lt (by omega)]
  · rw [hindex]
    change (Slot.double 0 (blockCount m i - 266)).target (setOiSize (setOiSize m' (inodeAt i)
      (oiSize m' (inodeAt i) + 1024)) (inodeAt i) v) (inodeAt i) = 0
    rw [setOiSize_setOiSize]
    exact hm.target v
  · refine (store32_changesOnly m' _ _ a fun hmem => hpointer (.inl ?_)).trans
      (hm.frame a ha hsuper hbitmap hpointer)
    exact Set.mem_Ico.1 hmem

theorem Extended.furnished (h : WellFormed g m own i)
    (he : Extended h.lt own m (blockCount m i) m m') : Furnished g i m m' := by
  have hlimit := h.size_lt
  have hblocks := (Reshaped.refl h).le_nblocks
  refine ⟨?_, fun v => .inr ?_, fun a ha _ hbitmap hpointer => ?_⟩
  · rw [he.size, Nat.mod_eq_of_lt (by omega)]
  · exact (he.reshaped.setOiSize v).isData
      (Slot.ofIndex_inUse (Nat.lt_succ_self _) (by unfold Slot.maxfileblks; omega))
  · exact he.reshaped.changes a (h.stored.not_mem_reach_of_metadata ha hbitmap hpointer)

theorem addBlock_succeeds (h : WellFormed g m own i) (hin : ¬ OutOfBlocks g m i) :
    ∃ m', addBlock m (inodeAt i) = (none, m') ∧ Furnished g i m m' := by
  have hlimit := h.size_lt
  have hr := Reshaped.refl h
  by_cases hfull : (freeBlocks g m).card = 0
  · have hn : 10 < blockCount m i ∧ blockCount m i < 266 := by
      by_contra hnot
      exact hin (.inl ⟨hfull, hnot⟩)
    refine ⟨(grow m (inodeAt i)).2, addBlock_boot h hfull hn.1 hn.2, ?_, fun v => .inl ?_,
      fun a _ _ _ hpointer => ?_⟩
    · refine (load32_store32_same m _ _).trans ?_
      rw [Nat.mod_eq_of_lt (by omega)]
    · have hindex : Slot.ofIndex (blockCount m i) = .single (blockCount m i - 10) := by
        unfold Slot.ofIndex
        rw [if_neg (by omega), if_pos (by omega)]
      rw [hindex]
      change (Slot.single (blockCount m i - 10)).target (setOiSize (setOiSize m (inodeAt i)
        (oiSize m (inodeAt i) + 1024)) (inodeAt i) v) (inodeAt i) = 0
      rw [setOiSize_setOiSize]
      refine (hr.setOiSize v).tidy _ ⟨?_, fun p hparent => ?_⟩ ?_
      · exact (by omega : blockCount m i - 10 < 256)
      · cases hparent
        exact hn.1
      · simp only [Slot.InUse]
        omega
    · refine store32_changesOnly m _ _ a fun hmem => hpointer (.inl ?_)
      exact Set.mem_Ico.1 hmem
  · by_cases hfirst : 266 ≤ blockCount m i ∧ blockCount m i < 522
    · have hmisplaced : ∃ m', addBlock m (inodeAt i) = grow m' (inodeAt i) ∧
          Misplaced g i m m' := by
        rcases Nat.lt_or_eq_of_le hfirst.1 with hlt | heq
        · exact addBlock_267 h hlt hfirst.2 (by omega)
        · refine addBlock_266 h heq.symm ?_
          by_contra hone
          exact hin (.inr ⟨by omega, .inr (.inl heq.symm)⟩)
      obtain ⟨m', hadd, hm⟩ := hmisplaced
      exact ⟨_, hadd, hm.furnished h hfirst.1 hfirst.2⟩
    · have hroom : Slot.missing (blockCount m i) ≤ (freeBlocks g m).card := by
        have hpointers : ¬ ((freeBlocks g m).card = 1 ∧ NeedsPointers (blockCount m i)) :=
          fun hone => hin (.inr hone)
        unfold NeedsPointers at hpointers
        unfold Slot.missing
        split_ifs <;> omega
      obtain ⟨m', hadd, hextended⟩ := hr.addBlock h rfl le_rfl (by omega) hroom
      exact ⟨m', hadd, hextended.furnished h⟩

/-! ## `change_size` by one entry -/

theorem growLoop_done {oi newSize : Nat}
    (h : ospfsSize2nblocks newSize ≤ ospfsSize2nblocks (oiSize m oi)) (rounds counter : Nat) :
    growLoop oi newSize rounds counter m = (none, counter, m) := by
  cases rounds with
  | zero => rfl
  | succ rounds => rw [growLoop, if_neg (by omega)]

theorem shrinkLoop_done {oi newSize : Nat}
    (h : ospfsSize2nblocks (oiSize m oi) ≤ ospfsSize2nblocks newSize) (rounds : Nat)
    (r : Option Errno) : shrinkLoop oi newSize rounds r m = (r, m) := by
  cases rounds with
  | zero => rfl
  | succ rounds => rw [shrinkLoop, if_neg (by omega)]

/-- The new entry fits in the last block. -/
theorem changeSize_same {oi newSize : Nat}
    (h : ospfsSize2nblocks newSize = ospfsSize2nblocks (oiSize m oi)) :
    changeSize m oi newSize = (none, setOiSize m oi newSize) := by
  rw [changeSize_of_grown (growLoop_done h.le maxRounds 0), shrinkLoop_done h.ge]

theorem growLoop_first {oi newSize : Nat}
    (h : ospfsSize2nblocks (oiSize m oi) < ospfsSize2nblocks newSize) :
    growLoop oi newSize maxRounds 0 m =
      match addBlock m oi with
      | (none, m') => growLoop oi newSize (maxRounds - 1) 1 m'
      | (some errno, m') => (some errno, 0, m') := by
  rw [show maxRounds = (maxRounds - 1) + 1 from rfl, growLoop, if_pos h]
  rfl

theorem changeSize_one {oi newSize : Nat}
    (h : ospfsSize2nblocks newSize = ospfsSize2nblocks (oiSize m oi) + 1)
    (hadd : addBlock m oi = (none, m'))
    (hsize : ospfsSize2nblocks (oiSize m' oi) = ospfsSize2nblocks newSize) :
    changeSize m oi newSize = (none, setOiSize m' oi newSize) := by
  have hgrow : growLoop oi newSize maxRounds 0 m = (none, 1, m') := by
    rw [growLoop_first (by omega), hadd]
    exact growLoop_done hsize.ge _ 1
  rw [changeSize_of_grown hgrow, shrinkLoop_done hsize.le]

theorem changeSize_failed {oi newSize : Nat} {errno : Errno}
    (h : ospfsSize2nblocks (oiSize m oi) < ospfsSize2nblocks newSize)
    (hadd : addBlock m oi = (some errno, m')) (hsize : oiSize m' oi = oiSize m oi) :
    changeSize m oi newSize = (some errno, m') := by
  have hgrow : growLoop oi newSize maxRounds 0 m = (some errno, 0, m') := by
    rw [growLoop_first h, hadd]
  rw [changeSize_of_failed hgrow, rollBack, shrinkLoop_done (by rw [hsize]), ← hsize]
  refine Prod.ext rfl ?_
  exact store32_load32 m' oi

/-! ## `create_blank_direntry` -/

/-- The directory cannot grow by an entry. -/
def NoRoom (g : Geometry) (m : Memory) (d : Nat) : Prop :=
  IsFull m (inodeAt d) ∧ 1024 ∣ oiSize m (inodeAt d) ∧ OutOfBlocks g m d

/-- The place of the new entry is neither in the metadata nor beside it. -/
structure Room (g : Geometry) (d od : Nat) (m m' : Memory) : Prop where
  place : od + 128 ≤ 1024 ∨ 1024 * g.firstData ≤ od
  frame : ∀ a < 1024 * g.firstData, a ∉ Set.Ico 1024 1028 → a ∉ blockBytes 2 →
    a ∉ pointerBytes d → m' a = m a

theorem place_of_target (hzero : b = 0 ∨ g.IsData b) (hdvd : 128 ∣ n) :
    ospfsBlock b + n % 1024 + 128 ≤ 1024 ∨ 1024 * g.firstData ≤ ospfsBlock b + n % 1024 := by
  rcases hzero with rfl | hdata
  · refine .inl ?_
    simp only [ospfsBlock]
    omega
  · have hfirst := hdata.1
    rw [hdata.block]
    omega

theorem createBlankDirentry_fails (h : WellFormed g m own d) (hroom : NoRoom g m d) :
    ∃ m', createBlankDirentry m (inodeAt d) = (.error .enospc, m') ∧
      (m' = m ↔ ¬ LeavesTraces g m d) := by
  obtain ⟨hfull, hdvd, hout⟩ := hroom
  obtain ⟨m', hadd, hsize, htraces⟩ := addBlock_fails h hout
  have hlimit := h.size_lt
  have hblocks : ospfsSize2nblocks (oiSize m (inodeAt d)) <
      ospfsSize2nblocks (oiSize m (inodeAt d) + 128) := by
    unfold ospfsSize2nblocks
    omega
  refine ⟨m', ?_, htraces⟩
  have hmod : (oiSize m (inodeAt d) + 128) % 2 ^ 32 = oiSize m (inodeAt d) + 128 :=
    Nat.mod_eq_of_lt (by omega)
  unfold createBlankDirentry
  unfold IsFull at hfull
  simp only [hfull, hmod, changeSize_failed hblocks hadd hsize]

/-- The entry is found at the old end of the directory. -/
theorem createBlankDirentry_grown {v : Nat} (hfull : IsFull m (inodeAt d))
    (hdvd : 128 ∣ oiSize m (inodeAt d)) (hlimit : oiSize m (inodeAt d) ≤ 8388608)
    (hchange : changeSize m (inodeAt d) (oiSize m (inodeAt d) + 128) =
      (none, setOiSize m' (inodeAt d) v)) (hv : v = oiSize m (inodeAt d) + 128)
    (hftype : oiFtype m' (inodeAt d) ≠ ftypeSymlink) :
    createBlankDirentry m (inodeAt d) =
      (.ok (ospfsBlock ((Slot.ofIndex (oiSize m (inodeAt d) / 1024)).target
        (setOiSize m' (inodeAt d) v) (inodeAt d)) + oiSize m (inodeAt d) % 1024),
        setOiSize m' (inodeAt d) v) := by
  have hmod : (oiSize m (inodeAt d) + 128) % 2 ^ 32 = oiSize m (inodeAt d) + 128 :=
    Nat.mod_eq_of_lt (by omega)
  have hend : 128 * entryCount m (inodeAt d) = oiSize m (inodeAt d) := by
    unfold entryCount
    omega
  have hsize : oiSize (setOiSize m' (inodeAt d) v) (inodeAt d) = v := by
    refine (load32_store32_same m' _ v).trans ?_
    rw [Nat.mod_eq_of_lt (by omega)]
  have hftype' : oiFtype (setOiSize m' (inodeAt d) v) (inodeAt d) ≠ ftypeSymlink := by
    rwa [oiFtype, setOiSize, load32_store32_of_disjoint (by omega)]
  unfold createBlankDirentry
  unfold IsFull at hfull
  simp only [hfull, hmod, hchange, hend, ospfsInodeData]
  rw [ospfsInodeBlockno_eq (by rw [hsize]; omega) hftype']

theorem createBlankDirentry_succeeds (h : WellFormed g m own d)
    (hftype : oiFtype m (inodeAt d) = ftypeDir) (hdvd : 128 ∣ oiSize m (inodeAt d))
    (hroom : ¬ NoRoom g m d) :
    ∃ od m', createBlankDirentry m (inodeAt d) = (.ok od, m') ∧ Room g d od m m' := by
  have hlimit := h.size_lt
  have hsymlink : oiFtype m (inodeAt d) ≠ ftypeSymlink := by
    rw [hftype]
    decide
  have hframe : ∀ (m₁ : Memory) (v : Nat), (∀ a < 1024 * g.firstData, a ∉ Set.Ico 1024 1028 →
      a ∉ blockBytes 2 → a ∉ pointerBytes d → m₁ a = m a) →
      ∀ a < 1024 * g.firstData, a ∉ Set.Ico 1024 1028 → a ∉ blockBytes 2 →
        a ∉ pointerBytes d → setOiSize m₁ (inodeAt d) v a = m a := by
    intro m₁ v hsame a ha hsuper hbitmap hpointer
    refine (store32_changesOnly m₁ _ v a fun hmem => hpointer (.inl ?_)).trans
      (hsame a ha hsuper hbitmap hpointer)
    exact Set.mem_Ico.1 hmem
  by_cases hfull : IsFull m (inodeAt d)
  · by_cases hblock : 1024 ∣ oiSize m (inodeAt d)
    · obtain ⟨m₁, hadd, hfurnished⟩ :=
        addBlock_succeeds h fun hout => hroom ⟨hfull, hblock, hout⟩
      have hcount : blockCount m d = oiSize m (inodeAt d) / 1024 := by
        unfold blockCount ospfsSize2nblocks
        omega
      have hchange : changeSize m (inodeAt d) (oiSize m (inodeAt d) + 128) =
          (none, setOiSize m₁ (inodeAt d) (oiSize m (inodeAt d) + 128)) := by
        refine changeSize_one ?_ hadd ?_
        · unfold ospfsSize2nblocks
          omega
        · rw [hfurnished.size]
          unfold ospfsSize2nblocks
          omega
      have hfield : oiFtype m₁ (inodeAt d) = oiFtype m (inodeAt d) := by
        refine load32_congr fun t ht => hfurnished.frame _ ?_ ?_ ?_ ?_
        · have hlast := h.lt
          unfold inodeAt Geometry.firstData
          omega
        all_goals
          simp only [inodeAt, blockBytes, pointerBytes, Set.mem_Ico, Set.mem_ofPred_eq]
          omega
      have htarget := hfurnished.target (oiSize m (inodeAt d) + 128)
      rw [hcount] at htarget
      exact ⟨_, _, createBlankDirentry_grown hfull hdvd hlimit hchange rfl (by rwa [hfield]),
        place_of_target htarget hdvd, hframe m₁ _ hfurnished.frame⟩
    · have hsame : ospfsSize2nblocks (oiSize m (inodeAt d) + 128) =
          ospfsSize2nblocks (oiSize m (inodeAt d)) := by
        unfold ospfsSize2nblocks
        omega
      have hdata := ((Reshaped.refl h).setOiSize (oiSize m (inodeAt d) + 128)).isData
        (h.ofIndex_inUse (k := oiSize m (inodeAt d) / 1024) (by
          unfold blockCount ospfsSize2nblocks
          omega))
      exact ⟨_, _, createBlankDirentry_grown hfull hdvd hlimit (changeSize_same hsame) rfl hsymlink,
        place_of_target (.inr hdata) hdvd, hframe m _ fun a _ _ _ _ => rfl⟩
  · cases hfind : findOffset m (inodeAt d) (fun od => odIno m od = 0) with
    | none => exact absurd hfind hfull
    | some off =>
        obtain ⟨k, hk, rfl, -⟩ := findOffset_some hfind
        have hlt : 128 * k < oiSize m (inodeAt d) := by
          unfold entryCount at hk
          omega
        refine ⟨ospfsInodeData m (inodeAt d) (128 * k), m, ?_, ?_, fun a _ _ _ _ => rfl⟩
        · unfold createBlankDirentry
          simp only [hfind]
        have hdata := h.isData (h.ofIndex_inUse (k := 128 * k / 1024) (by
          unfold blockCount ospfsSize2nblocks
          omega))
        have haddress : ospfsInodeData m (inodeAt d) (128 * k) =
            ospfsBlock ((Slot.ofIndex (128 * k / 1024)).target m (inodeAt d)) +
              128 * k % 1024 := by
          rw [ospfsInodeData, ospfsInodeBlockno_eq hlt hsymlink]
        rw [haddress]
        exact place_of_target (.inr hdata) (Nat.dvd_mul_right 128 k)

/-! ## The new entry -/

/-- What `ospfs_create` and `ospfs_symlink` write when the directory has room. -/
def enter (m₁ : Memory) (ino od : Nat) (name : Name) (initInode : Memory → Nat → Memory) :
    Memory :=
  setOdName (setOdIno (initInode m₁ (inodeAt ino)) od ino) od name

variable {initInode : Memory → Nat → Memory} {ino od : Nat} {name : Name} {m₁ : Memory}

theorem enter_changesOnly (m : Memory) (hlength : name.length ≤ 123) :
    ChangesOnly (Set.Ico od (od + 128)) (initInode m (inodeAt ino))
      (enter m ino od name initInode) := by
  refine ((setOdIno_changesOnly ino).mono ?_).trans ((setOdName_changesOnly hlength).mono ?_)
  all_goals
    intro a ha
    simp only [Set.mem_Ico] at *
    omega

/-- The entry is beside the new inode. -/
theorem Room.inode_eq (initInode : Memory → Nat → Memory) (hr : Room g d od m m₁) (hino : ino < g.ninodes)
    (hlength : name.length ≤ 123) (ha : a ∈ inodeBytes ino) :
    enter m₁ ino od name initInode a = initInode m₁ (inodeAt ino) a := by
  refine enter_changesOnly m₁ hlength a fun hmem => ?_
  have hplace := hr.place
  simp only [inodeBytes, inodeAt, Set.mem_Ico] at ha hmem
  unfold Geometry.firstData at hplace
  omega

theorem Room.fits (hr : Room g d od m m₁) (hfits : g.Fits m) : g.Fits m₁ := by
  have hload : ∀ k, 4 ≤ k → k ≤ 1020 → load32 m₁ (1024 + k) = load32 m (1024 + k) := by
    refine fun k hk hk' => load32_congr fun t ht => hr.frame _ ?_ ?_ ?_ ?_
    · unfold Geometry.firstData
      omega
    all_goals
      simp only [inodeAt, blockBytes, pointerBytes, Set.mem_Ico, Set.mem_ofPred_eq]
      omega
  exact ⟨(hload 4 (by decide) (by decide)).trans hfits.nblocks,
    (hload 8 (by decide) (by decide)).trans hfits.ninodes,
    (hload 12 (by decide) (by decide)).trans hfits.firstinob⟩

theorem Room.fits_enter (initInode : Memory → Nat → Memory) (hr : Room g d od m m₁)
    (hfits : g.Fits m)
    (hinit : ChangesOnly (inodeBytes ino) m₁ (initInode m₁ (inodeAt ino)))
    (hlength : name.length ≤ 123) : g.Fits (enter m₁ ino od name initInode) := by
  have hplace := hr.place
  unfold Geometry.firstData at hplace
  refine ((hr.fits hfits).changesOnly hinit fun a ha => ?_).changesOnly
    (enter_changesOnly m₁ hlength) fun a ha => ?_
  all_goals
    simp only [inodeBytes, inodeAt, blockBytes, Set.mem_Ico] at *
    omega

/-- `ospfs_create` and `ospfs_symlink` fail for one of these reasons, or enter the name. -/
theorem makeEntry_ends (h : WellFormed g m own d) (hftype : oiFtype m (inodeAt d) = ftypeDir)
    (hdvd : 128 ∣ oiSize m (inodeAt d)) (name : Name) (initInode : Memory → Nat → Memory)
    (newInode : Bool) :
    (∃ errno, makeEntry m (inodeAt d) name initInode newInode = (some errno, m) ∧
        ((findDirentry m (inodeAt d) name).isSome ∨ findInode m = none)) ∨
      ∃ ino, findInode m = some ino ∧ findDirentry m (inodeAt d) name = none ∧
        ((NoRoom g m d ∧ ∃ m', makeEntry m (inodeAt d) name initInode newInode =
            (some .enospc, m') ∧ (m' = m ↔ ¬ LeavesTraces g m d)) ∨
          (¬ NoRoom g m d ∧ ∃ od m₁, Room g d od m m₁ ∧
            makeEntry m (inodeAt d) name initInode newInode =
              (instantiate (enter m₁ ino od name initInode) ino newInode,
                enter m₁ ino od name initInode))) := by
  unfold makeEntry
  cases hfind : findDirentry m (inodeAt d) name with
  | some od => exact .inl ⟨.eexist, rfl, .inl rfl⟩
  | none =>
      cases hfree : findInode m with
      | none => exact .inl ⟨.enospc, rfl, .inr rfl⟩
      | some ino =>
          refine .inr ⟨ino, rfl, rfl, ?_⟩
          rw [h.stored.fits.firstinob]
          by_cases hroom : NoRoom g m d
          · obtain ⟨m', hblank, htraces⟩ := createBlankDirentry_fails h hroom
            refine .inl ⟨hroom, m', ?_, htraces⟩
            simp [hblank]
          · obtain ⟨od, m₁, hblank, hr⟩ := createBlankDirentry_succeeds h hftype hdvd hroom
            refine .inr ⟨hroom, od, m₁, hr, ?_⟩
            simp only [Option.isSome_none, Bool.false_eq_true, if_false, hblank]
            rfl

/-- After the name is entered, only `new_inode` can fail. -/
theorem Room.instantiate_eq (initInode : Memory → Nat → Memory) (hr : Room g d od m m₁)
    (hfits : g.Fits m) (hino : ino < g.ninodes) (hlength : name.length ≤ 123)
    (hinit : ChangesOnly (inodeBytes ino) m₁ (initInode m₁ (inodeAt ino)))
    (hftype : oiFtype (initInode m₁ (inodeAt ino)) (inodeAt ino) = ftypeReg ∨
      oiFtype (initInode m₁ (inodeAt ino)) (inodeAt ino) = ftypeSymlink) (newInode : Bool) :
    instantiate (enter m₁ ino od name initInode) ino newInode =
      if newInode then none else some .enomem := by
  have hfield : oiFtype (enter m₁ ino od name initInode) (inodeAt ino) =
      oiFtype (initInode m₁ (inodeAt ino)) (inodeAt ino) :=
    load32_congr fun t ht => hr.inode_eq initInode hino hlength (by
      simp only [inodeBytes, Set.mem_Ico]
      omega)
  rw [← hfield] at hftype
  unfold instantiate ospfsMkLinuxInode
  rw [(hr.fits_enter initInode hfits hinit hlength).ospfsInode hino]
  cases newInode with
  | false => rfl
  | true =>
      simp only [Bool.true_eq_false, if_false, if_true]
      rw [if_pos (hftype.imp_right .inr)]

/-! ## The directory of an empty disk -/

theorem emptyDisk_wellFormed :
    WellFormed emptyGeometry emptyDisk (owner emptyGeometry emptyDisk) 1 where
  stored := (emptyDisk_formatted.sound False).stored
  owner := ((emptyDisk_isDir 1).2 rfl).owner
  filled s huse := absurd huse (emptyDisk_not_inUse (by decide))
  tidy s hs hparent _ := by
    cases s with
    | direct k =>
        have hzero : ∀ k < 10, oiDirect emptyDisk (inodeAt 1) k = 0 := by decide
        exact hzero k hs
    | indirect => decide
    | indirect2 => decide
    | single _ | outer _ | double _ _ =>
        exact absurd (hparent _ rfl) (emptyDisk_not_inUse (by decide))

theorem emptyDisk_room : ¬ NoRoom emptyGeometry emptyDisk 1 := by
  have hcard : (freeBlocks emptyGeometry emptyDisk).card = 2 := by decide
  rintro ⟨-, -, ⟨hfull, -⟩ | ⟨hlast, -⟩⟩
  · omega
  · omega

end Cs111Labs.Ospfs
