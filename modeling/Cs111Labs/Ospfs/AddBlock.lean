import Cs111Labs.Ospfs.OneFile

/-!
# Adding a block

Where the indices of `add_block` are those that `ospfs_inode_blockno` computes,
the missing slots of one block are taken into the tree of the file.
-/

namespace Cs111Labs.Ospfs

open Foundation Memory

variable {g : Geometry} {m m' m'' m₀ : Memory} {own : Nat → Prop} {a b c i n : Nat}
  {U : Slot → Prop} {s t : Slot}

/-! ## Slots of one block -/

namespace Slot

theorem InUse.mono {n' : Nat} (hle : n ≤ n') (h : s.InUse n) : s.InUse n' := by
  cases s <;> simp only [InUse] at * <;> omega

/-- The slots on the way to a block of a file, from the inode. -/
def path (blockno : Nat) : List Slot :=
  if blockno < 10 then [direct blockno]
  else if blockno < 10 + 256 then [indirect, single (blockno - 10)]
  else [indirect2, outer ((blockno - (10 + 256)) / 256),
    double ((blockno - (10 + 256)) / 256) ((blockno - (10 + 256)) % 256)]

theorem inUse_succ (hn : n < maxfileblks) (s : Slot) :
    s.InUse (n + 1) ↔ s.InUse n ∨ s ∈ path n := by
  unfold maxfileblks at hn
  unfold path
  cases s <;> split_ifs <;>
    simp only [InUse, List.mem_cons, List.not_mem_nil, or_false, false_or, reduceCtorEq,
      direct.injEq, single.injEq, outer.injEq, double.injEq, or_true, iff_true] <;>
    omega

end Slot

/-! ## Frames of one pointer -/

namespace Reshaped

variable {hi : i < g.ninodes}

theorem link_field (h : Reshaped hi own m₀ U m) (hs : (fileTree g i hi).InPlace U s)
    (hb : g.IsData b) {k : Nat} (hk : k ≤ 12) :
    load32 (Ospfs.link m ((fileTree g i hi).cell m s) b) (inodeAt i + k) =
      load32 m (inodeAt i + k) := by
  have hlow : 3072 ≤ inodeAt i := Nat.le_add_right _ _
  have hfirst := inode_le_of_isData hb hi
  refine (link_changesOnly hb m _).load32 fun d hd => ?_
  rintro ((hbitmap | hword) | hblock)
  · simp only [blockBytes, Set.mem_Ico] at hbitmap
    omega
  · exact FileTree.word_field h.spans hs hword (Set.mem_Ico.2 ⟨by omega, by omega⟩)
  · simp only [blockBytes, Set.mem_Ico] at hblock
    omega

theorem link_size (h : Reshaped hi own m₀ U m) (hs : (fileTree g i hi).InPlace U s)
    (hb : g.IsData b) :
    oiSize (Ospfs.link m ((fileTree g i hi).cell m s) b) (inodeAt i) =
      oiSize m (inodeAt i) := by
  have hfield := h.link_field hs hb (Nat.zero_le 12)
  simpa only [oiSize, Nat.add_zero] using hfield

theorem unlink_field (h : Reshaped hi own m₀ U m) (h₀ : WellFormed g m₀ own i) (hs : U s)
    {k : Nat} (hk : k ≤ 12) :
    load32 (Ospfs.unlink m ((fileTree g i hi).cell m s)) (inodeAt i + k) =
      load32 m (inodeAt i + k) := by
  have hlow : 3072 ≤ inodeAt i := Nat.le_add_right _ _
  refine (h.unlink_changesOnly h₀ hs).load32 fun d hd => ?_
  rintro (hbitmap | hword)
  · simp only [blockBytes, Set.mem_Ico] at hbitmap
    omega
  · exact FileTree.word_field h.spans (h.spans.inPlace s hs) hword
      (Set.mem_Ico.2 ⟨by omega, by omega⟩)

theorem unlink_size (h : Reshaped hi own m₀ U m) (h₀ : WellFormed g m₀ own i) (hs : U s) :
    oiSize (Ospfs.unlink m ((fileTree g i hi).cell m s)) (inodeAt i) =
      oiSize m (inodeAt i) := by
  have hfield := h.unlink_field h₀ hs (Nat.zero_le 12)
  simpa only [oiSize, Nat.add_zero] using hfield

theorem card_link (h : Reshaped hi own m₀ U m) (hs : (fileTree g i hi).InPlace U s)
    (hb : g.IsData b) (hfree : (ledger g m own).Free b) :
    (freeBlocks g (Ospfs.link m ((fileTree g i hi).cell m s) b)).card + 1 =
      (freeBlocks g m).card := by
  have herase : freeBlocks g (Ospfs.link m ((fileTree g i hi).cell m s) b) =
      (freeBlocks g m).erase b := by
    ext c
    have hblocks := g.nblocks_le
    simp only [freeBlocks, Finset.mem_filter, Finset.mem_range, Finset.mem_erase]
    constructor
    · rintro ⟨hc, hbit⟩
      rw [bitvectorTest_link hb (fun x hx => FileTree.word_bitmap h.spans hs hx) (by omega),
        Bool.and_eq_true, decide_eq_true_eq] at hbit
      exact ⟨hbit.2, hc, hbit.1⟩
    · rintro ⟨hne, hc, hbit⟩
      rw [bitvectorTest_link hb (fun x hx => FileTree.word_bitmap h.spans hs hx) (by omega),
        Bool.and_eq_true, decide_eq_true_eq]
      exact ⟨hc, hbit, hne⟩
  rw [herase, Finset.card_erase_add_one ((mem_freeBlocks own).2 hfree)]

end Reshaped

/-! ## The branches of `add_block` -/

/-- A block is allocated for the word at `a`. -/
theorem addDirect_link {oi : Nat} (hpos : b ≠ 0)
    (halloc : allocateBlock m = (b, bitvectorClear m freemap b)) :
    addDirect m oi n = grow (link m (oi + (16 + 4 * n)) b) oi := by
  unfold addDirect
  rw [halloc]
  simp only [if_neg hpos, link, setOiDirect, Nat.add_assoc]

theorem addSingle_link {oi : Nat} (hind : oiIndirect m oi ≠ 0)
    (halloc : allocateBlock m = (b, bitvectorClear m freemap b)) :
    addSingle m oi n =
      grow (link m (ospfsBlock (oiIndirect m oi) + 4 * directIndex n) b) oi := by
  unfold addSingle
  simp only [if_neg hind, halloc, ne_eq, not_true_eq_false, and_false, if_false, link]

/-- The indirect block is new. -/
theorem addSingle_new {oi : Nat} (hind : oiIndirect m oi = 0) (hpos : a ≠ 0)
    (hlt : a < 2 ^ 32) (halloc : allocateBlock m = (a, bitvectorClear m freemap a)) :
    addSingle m oi n =
      let m₁ := link m (oi + 56) a
      if (allocateBlock m₁).1 = 0 then
        (some .enospc, setOiIndirect (freeBlock (allocateBlock m₁).2 a) oi 0)
      else grow (eraseBlock (store32 (allocateBlock m₁).2
        (ospfsBlock (oiIndirect m₁ oi) + 4 * directIndex n) (allocateBlock m₁).1)
        (allocateBlock m₁).1) oi := by
  have hset : oiIndirect (setOiIndirect (bitvectorClear m freemap a) oi a) oi = a :=
    (load32_store32_same _ _ _).trans (Nat.mod_eq_of_lt hlt)
  unfold addSingle
  simp only [if_pos hind, halloc, hset, ne_eq, hpos, not_false_eq_true, and_true]
  rfl

theorem addDouble_link {oi p : Nat} (hind : oiIndirect2 m oi ≠ 0)
    (hoffset : directIndex n ≠ 0) (hpos : b ≠ 0)
    (halloc : allocateBlock m = (b, bitvectorClear m freemap b))
    (houter : (Slot.outer (indirIndex n).toNat).target (bitvectorClear m freemap b) oi = p) :
    addDouble m oi n = grow (link m (ospfsBlock p + 4 * directIndex n) b) oi := by
  unfold addDouble
  simp only [if_neg hind, if_neg hoffset, halloc, if_neg hpos, link]
  rw [← houter]
  rfl

/-- The indirect block is new, and the doubly indirect block was there. -/
theorem addDouble_new {oi p q : Nat} (hind : oiIndirect2 m oi ≠ 0)
    (hoffset : directIndex n = 0) (hpos : a ≠ 0)
    (halloc : allocateBlock m = (a, bitvectorClear m freemap a))
    (hq : oiIndirect2 (bitvectorClear m freemap a) oi = q) (hpos' : b ≠ 0)
    (halloc' : allocateBlock (link m (ospfsBlock q + 4 * (indirIndex n).toNat) a) =
      (b, bitvectorClear (link m (ospfsBlock q + 4 * (indirIndex n).toNat) a) freemap b))
    (houter : (Slot.outer (indirIndex n).toNat).target (bitvectorClear
      (link m (ospfsBlock q + 4 * (indirIndex n).toNat) a) freemap b) oi = p) :
    addDouble m oi n = grow (link (link m (ospfsBlock q + 4 * (indirIndex n).toNat) a)
      (ospfsBlock p + 4 * directIndex n) b) oi := by
  unfold addDouble
  subst hq
  unfold link at halloc' houter ⊢
  simp only [if_neg hind, if_pos hoffset, halloc, if_neg hpos, halloc', if_neg hpos']
  rw [← houter, hoffset]
  rfl

/-- The doubly indirect block is new, and no indirect block is allocated. -/
theorem addDouble_first {oi p : Nat} (hind : oiIndirect2 m oi = 0)
    (hoffset : directIndex n ≠ 0) (hpos : a ≠ 0)
    (halloc : allocateBlock m = (a, bitvectorClear m freemap a)) (hpos' : b ≠ 0)
    (halloc' : allocateBlock (link m (oi + 60) a) =
      (b, bitvectorClear (link m (oi + 60) a) freemap b))
    (houter : (Slot.outer (indirIndex n).toNat).target
      (bitvectorClear (link m (oi + 60) a) freemap b) oi = p) :
    addDouble m oi n =
      grow (link (link m (oi + 60) a) (ospfsBlock p + 4 * directIndex n) b) oi := by
  unfold addDouble
  unfold link at halloc' houter ⊢
  simp only [setOiIndirect2, if_pos hind, if_neg hoffset, halloc, if_neg hpos, halloc', if_neg hpos']
  rw [← houter]
  rfl

/-! ## One block more -/

namespace Slot

/-- The number of blocks that `add_block` allocates. -/
def missing (n : Nat) : Nat :=
  if n = 10 then 2 else if n = 266 then 3 else if 266 < n ∧ (n - 266) % 256 = 0 then 2 else 1

end Slot

section Add

variable {hi : i < g.ninodes}

/-- A free block is allocated for a slot. -/
structure Attached (hi : i < g.ninodes) (own : Nat → Prop) (m₀ : Memory) (U : Slot → Prop)
    (s : Slot) (b : Nat) (m m' : Memory) : Prop where
  alloc : allocateBlock m = (b, bitvectorClear m freemap b)
  isData : g.IsData b
  eq : m' = link m ((fileTree g i hi).cell m s) b
  reshaped : Reshaped hi own m₀ (fun t => U t ∨ t = s) m'
  size : oiSize m' (inodeAt i) = oiSize m (inodeAt i)
  card : (freeBlocks g m').card + 1 = (freeBlocks g m).card

theorem Attached.pos (h : Attached hi own m₀ U s b m m') : b ≠ 0 := by
  have hthree := h.isData.three_lt
  omega

theorem Reshaped.exists_attached (h : Reshaped hi own m₀ U m) (h₀ : WellFormed g m₀ own i)
    (hkeeps : ∀ s : Slot, s.InUse (blockCount m₀ i) → U s)
    (hs : (fileTree g i hi).InPlace U s) (hnew : ¬ U s) (hroom : 0 < (freeBlocks g m).card) :
    ∃ b m', Attached hi own m₀ U s b m m' := by
  obtain ⟨b, hfree, halloc⟩ := allocateBlock_of_room own (h.fits h₀) hroom
  have hb : g.IsData b := h₀.stored.safe.free_mem b (h.free_before hkeeps hfree)
  exact ⟨b, _, halloc, hb, rfl, h.link h₀ hkeeps hs hnew hfree,
    h.link_size hs hb, h.card_link hs hb hfree⟩

theorem Reshaped.target_clear (h : Reshaped hi own m₀ U m) (hs : U s) (hb : g.IsData b) :
    s.target (bitvectorClear m freemap b) (inodeAt i) = s.target m (inodeAt i) := by
  have hlast := hb.2
  have hblocks := g.nblocks_le
  exact h.spans.target_eq (bitvectorClear_changesOnly (by omega))
    (fun t ht x hx hmem => FileTree.word_bitmap h.spans (h.spans.inPlace t ht) hmem hx) hs

/-- A block is added. -/
structure Extended (hi : i < g.ninodes) (own : Nat → Prop) (m₀ : Memory) (n : Nat)
    (m m' : Memory) : Prop where
  reshaped : Reshaped hi own m₀ (·.InUse (n + 1)) m'
  size : oiSize m' (inodeAt i) = (oiSize m (inodeAt i) + 1024) % 2 ^ 32
  card : (freeBlocks g m').card + Slot.missing n = (freeBlocks g m).card

theorem freeBlocks_setOiSize (m : Memory) (i v : Nat) :
    freeBlocks g (setOiSize m (inodeAt i) v) = freeBlocks g m := by
  have hblocks := g.nblocks_le
  refine Finset.filter_congr fun c hc => ?_
  have hlt := Finset.mem_range.1 hc
  rw [setOiSize, bitvectorTest_changesOnly (store32_changesOnly m _ v) (fun x hx => ?_)
    (by omega)]
  simp only [blockBytes, inodeAt, Set.mem_Ico] at *
  omega

/-- The size is set when the slots of the block are in use. -/
theorem Attached.extended (h : Attached hi own m₀ U s b m' m'')
    (hsize : oiSize m' (inodeAt i) = oiSize m (inodeAt i))
    (hslots : ∀ t, U t ∨ t = s ↔ t.InUse (n + 1))
    (hcard : (freeBlocks g m'').card + Slot.missing n = (freeBlocks g m).card) :
    ∃ m₁, grow m'' (inodeAt i) = (none, m₁) ∧ Extended hi own m₀ n m m₁ := by
  refine ⟨_, rfl, (h.reshaped.setOiSize _).congr hslots, ?_, ?_⟩
  · rw [← hsize, ← h.size]
    exact load32_store32_same m'' _ _
  · rw [freeBlocks_setOiSize]
    exact hcard

theorem cell_double (m : Memory) (l k : Nat) :
    (fileTree g i hi).cell m (.double l k) =
      ospfsBlock ((Slot.outer l).target m (inodeAt i)) + 4 * k := rfl

theorem addBlock_of_single (hn : 10 ≤ blockCount m i) (hn' : blockCount m i < 266) :
    addBlock m (inodeAt i) = addSingle m (inodeAt i) (blockCount m i) ∧
      directIndex (blockCount m i) = blockCount m i - 10 := by
  have hindir2 : indir2Index (blockCount m i) = -1 := if_pos hn'
  have hindir : indirIndex (blockCount m i) = 0 := by
    unfold indirIndex
    rw [if_neg (by omega), hindir2]
    rfl
  refine ⟨?_, ?_⟩
  · simp only [addBlock, ← blockCount_eq, hindir2, hindir]
    rfl
  · unfold directIndex
    rw [hindir, if_neg (by decide), if_pos rfl]

theorem addBlock_of_double (hn : 522 ≤ blockCount m i) :
    addBlock m (inodeAt i) = addDouble m (inodeAt i) (blockCount m i) ∧
      (indirIndex (blockCount m i)).toNat = (blockCount m i - 266) / 256 ∧
      directIndex (blockCount m i) = (blockCount m i - 266) % 256 := by
  have hindir2 : indir2Index (blockCount m i) = 0 := if_neg (by omega)
  have hindir : indirIndex (blockCount m i) = ((blockCount m i - 266) / 256 : Nat) := by
    unfold indirIndex
    rw [if_neg (by omega), if_pos hindir2, Nat.sub_sub]
  refine ⟨?_, ?_, ?_⟩
  · simp only [addBlock, ← blockCount_eq, hindir2, if_true]
  · rw [hindir, Int.toNat_natCast]
  · unfold directIndex
    rw [hindir, if_neg (by omega), if_neg (by omega), Nat.sub_sub]

theorem Reshaped.addDirect (h : Reshaped hi own m₀ (·.InUse n) m)
    (h₀ : WellFormed g m₀ own i) (hcount : blockCount m i = n) (hle : blockCount m₀ i ≤ n)
    (hn : n < 10) (hroom : 0 < (freeBlocks g m).card) :
    ∃ m', addBlock m (inodeAt i) = (none, m') ∧ Extended hi own m₀ n m m' := by
  have hkeeps : ∀ s : Slot, s.InUse (blockCount m₀ i) → s.InUse n := fun s => .mono hle
  have hplace : (fileTree g i hi).InPlace (·.InUse n) (.direct n) := ⟨hn, nofun⟩
  obtain ⟨b, m₁, hlink⟩ :=
    h.exists_attached h₀ hkeeps hplace (fun huse => Nat.lt_irrefl n huse.2) hroom
  have hslots : ∀ t : Slot, t.InUse n ∨ t = .direct n ↔ t.InUse (n + 1) := fun t => by
    rw [Slot.inUse_succ (hn.trans (by decide)), Slot.path, if_pos hn, List.mem_singleton]
  have hmissing : Slot.missing n = 1 := by
    unfold Slot.missing
    split_ifs <;> omega
  obtain ⟨m', hgrow, hextended⟩ := hlink.extended rfl hslots (by rw [hmissing, hlink.card])
  refine ⟨m', ?_, hextended⟩
  rw [addBlock_of_lt (by omega), hcount, addDirect_link hlink.pos hlink.alloc, ← hgrow, hlink.eq]
  rfl

theorem Reshaped.addSingle (h : Reshaped hi own m₀ (·.InUse n) m)
    (h₀ : WellFormed g m₀ own i) (hcount : blockCount m i = n) (hle : blockCount m₀ i ≤ n)
    (hn : 10 < n) (hn' : n < 266) (hroom : 0 < (freeBlocks g m).card) :
    ∃ m', addBlock m (inodeAt i) = (none, m') ∧ Extended hi own m₀ n m m' := by
  have hkeeps : ∀ s : Slot, s.InUse (blockCount m₀ i) → s.InUse n := fun s => .mono hle
  have hindirect : Slot.indirect.InUse n := hn
  have hind : oiIndirect m (inodeAt i) ≠ 0 := by
    have hdata : g.IsData (oiIndirect m (inodeAt i)) := h.isData hindirect
    have hthree := hdata.three_lt
    omega
  have hplace : (fileTree g i hi).InPlace (·.InUse n) (.single (n - 10)) := by
    refine ⟨(by omega : n - 10 < 256), fun p hparent => ?_⟩
    cases hparent
    exact hindirect
  obtain ⟨b, m₁, hlink⟩ := h.exists_attached h₀ hkeeps hplace (fun huse => by
    have hlast := huse.2
    omega) hroom
  have hslots : ∀ t : Slot, t.InUse n ∨ t = .single (n - 10) ↔ t.InUse (n + 1) := fun t => by
    rw [Slot.inUse_succ (hn'.trans (by decide)), Slot.path, if_neg (by omega), if_pos hn',
      List.mem_cons, List.mem_singleton]
    constructor
    · exact fun ht => ht.imp_right .inr
    · rintro (ht | rfl | ht)
      · exact .inl ht
      · exact .inl hindirect
      · exact .inr ht
  have hmissing : Slot.missing n = 1 := by
    unfold Slot.missing
    split_ifs <;> omega
  obtain ⟨m', hgrow, hextended⟩ := hlink.extended rfl hslots (by rw [hmissing, hlink.card])
  obtain ⟨hadd, hoffset⟩ := addBlock_of_single (m := m) (i := i) (by omega) (by omega)
  refine ⟨m', ?_, hextended⟩
  rw [hadd, hcount, addSingle_link hind hlink.alloc, ← hgrow, hlink.eq, ← hcount, hoffset, hcount]
  rfl

theorem Reshaped.addIndirect (h : Reshaped hi own m₀ (·.InUse 10) m)
    (h₀ : WellFormed g m₀ own i) (hcount : blockCount m i = 10) (hle : blockCount m₀ i ≤ 10)
    (hroom : 2 ≤ (freeBlocks g m).card) :
    ∃ m', addBlock m (inodeAt i) = (none, m') ∧ Extended hi own m₀ 10 m m' := by
  have hkeeps : ∀ s : Slot, s.InUse (blockCount m₀ i) → s.InUse 10 := fun s => .mono hle
  have hplace : (fileTree g i hi).InPlace (·.InUse 10) .indirect := ⟨trivial, nofun⟩
  have hunused : ¬ Slot.indirect.InUse 10 := Nat.lt_irrefl 10
  have hind : oiIndirect m (inodeAt i) = 0 := h.tidy _ hplace hunused
  obtain ⟨a, m₁, hlink⟩ := h.exists_attached h₀ hkeeps hplace hunused (by omega)
  have hplace' : (fileTree g i hi).InPlace (fun t => t.InUse 10 ∨ t = .indirect)
      (.single 0) := by
    refine ⟨Nat.zero_lt_succ 255, fun p hparent => ?_⟩
    cases hparent
    exact .inr rfl
  have hcard := hlink.card
  obtain ⟨b, m₂, hlink'⟩ := hlink.reshaped.exists_attached h₀ (fun s hs => .inl (hkeeps s hs))
    hplace' (by rintro (huse | heq) <;> [exact absurd huse.2 (by decide); cases heq]) (by omega)
  have hslots : ∀ t : Slot, (t.InUse 10 ∨ t = .indirect) ∨ t = .single 0 ↔ t.InUse (10 + 1) :=
    fun t => by
      rw [Slot.inUse_succ (n := 10) (by decide) t, or_assoc]
      simp [Slot.path]
  have hcard' := hlink'.card
  obtain ⟨m', hgrow, hextended⟩ := hlink'.extended hlink.size hslots (by
    change _ + 2 = _
    omega)
  obtain ⟨hadd, hoffset⟩ := addBlock_of_single (m := m) (i := i) (by omega) (by omega)
  refine ⟨m', ?_, hextended⟩
  have hlt : a < 2 ^ 32 := hlink.isData.lt.trans (by decide)
  have hm₁ : Ospfs.link m (inodeAt i + 56) a = m₁ := hlink.eq.symm
  rw [hadd, hcount, addSingle_new hind hlink.pos hlt hlink.alloc]
  dsimp only
  rw [hm₁, hlink'.alloc, if_neg hlink'.pos, ← hgrow, hlink'.eq, ← hcount, hoffset, hcount]
  rfl

theorem Reshaped.addDouble (h : Reshaped hi own m₀ (·.InUse n) m)
    (h₀ : WellFormed g m₀ own i) (hcount : blockCount m i = n) (hle : blockCount m₀ i ≤ n)
    (hn : 522 ≤ n) (hn' : n < Slot.maxfileblks) (hoffset : (n - 266) % 256 ≠ 0)
    (hroom : 0 < (freeBlocks g m).card) :
    ∃ m', addBlock m (inodeAt i) = (none, m') ∧ Extended hi own m₀ n m m' := by
  have hkeeps : ∀ s : Slot, s.InUse (blockCount m₀ i) → s.InUse n := fun s => .mono hle
  have hmax := hn'
  unfold Slot.maxfileblks at hmax
  have hindirect2 : Slot.indirect2.InUse n := by
    simp only [Slot.InUse]
    omega
  have houter : (Slot.outer ((n - 266) / 256)).InUse n := ⟨by omega, by omega⟩
  have hind : oiIndirect2 m (inodeAt i) ≠ 0 := by
    have hdata : g.IsData (oiIndirect2 m (inodeAt i)) := h.isData hindirect2
    have hthree := hdata.three_lt
    omega
  have hplace : (fileTree g i hi).InPlace (·.InUse n)
      (.double ((n - 266) / 256) ((n - 266) % 256)) := by
    refine ⟨⟨by omega, Nat.mod_lt _ (by decide)⟩, fun p hparent => ?_⟩
    cases hparent
    exact houter
  obtain ⟨b, m₁, hlink⟩ := h.exists_attached h₀ hkeeps hplace (fun huse => by
    have hlast := huse.2.2
    omega) hroom
  have hslots : ∀ t : Slot, t.InUse n ∨ t = .double ((n - 266) / 256) ((n - 266) % 256) ↔
      t.InUse (n + 1) := fun t => by
    rw [Slot.inUse_succ hn', Slot.path, if_neg (by omega), if_neg (by omega),
      List.mem_cons, List.mem_cons, List.mem_singleton]
    constructor
    · exact fun ht => ht.imp_right fun heq => .inr (.inr heq)
    · rintro (ht | rfl | rfl | ht)
      · exact .inl ht
      · exact .inl hindirect2
      · exact .inl houter
      · exact .inr ht
  have hmissing : Slot.missing n = 1 := by
    unfold Slot.missing
    split_ifs <;> omega
  obtain ⟨m', hgrow, hextended⟩ := hlink.extended rfl hslots (by rw [hmissing, hlink.card])
  obtain ⟨hadd, hindir, hdirect⟩ := addBlock_of_double (m := m) (i := i) (by omega)
  rw [hcount] at hadd hindir hdirect
  refine ⟨m', ?_, hextended⟩
  have houter' : (Slot.outer (indirIndex n).toNat).target (bitvectorClear m freemap b)
      (inodeAt i) = (Slot.outer ((n - 266) / 256)).target m (inodeAt i) := by
    rw [hindir]
    exact h.target_clear houter hlink.isData
  rw [hadd, addDouble_link hind (by omega) hlink.pos hlink.alloc houter', ← hgrow, hlink.eq,
    hdirect, cell_double]

theorem Reshaped.addOuter (h : Reshaped hi own m₀ (·.InUse n) m)
    (h₀ : WellFormed g m₀ own i) (hcount : blockCount m i = n) (hle : blockCount m₀ i ≤ n)
    (hn : 522 ≤ n) (hn' : n < Slot.maxfileblks) (hoffset : (n - 266) % 256 = 0)
    (hroom : 2 ≤ (freeBlocks g m).card) :
    ∃ m', addBlock m (inodeAt i) = (none, m') ∧ Extended hi own m₀ n m m' := by
  have hkeeps : ∀ s : Slot, s.InUse (blockCount m₀ i) → s.InUse n := fun s => .mono hle
  have hmax := hn'
  unfold Slot.maxfileblks at hmax
  have hindirect2 : Slot.indirect2.InUse n := by
    simp only [Slot.InUse]
    omega
  have hunused : ¬ (Slot.outer ((n - 266) / 256)).InUse n := fun huse => by
    have hlast := huse.2
    omega
  have hind : oiIndirect2 m (inodeAt i) ≠ 0 := by
    have hdata : g.IsData (oiIndirect2 m (inodeAt i)) := h.isData hindirect2
    have hthree := hdata.three_lt
    omega
  have hplace : (fileTree g i hi).InPlace (·.InUse n) (.outer ((n - 266) / 256)) := by
    refine ⟨(by omega : (n - 266) / 256 < 256), fun p hparent => ?_⟩
    cases hparent
    exact hindirect2
  obtain ⟨a, m₁, hlink⟩ := h.exists_attached h₀ hkeeps hplace hunused (by omega)
  have hplace' : (fileTree g i hi).InPlace
      (fun t => t.InUse n ∨ t = .outer ((n - 266) / 256)) (.double ((n - 266) / 256) 0) := by
    refine ⟨⟨by omega, by decide⟩, fun p hparent => ?_⟩
    cases hparent
    exact .inr rfl
  have hunused' : ¬ ((Slot.double ((n - 266) / 256) 0).InUse n ∨
      Slot.double ((n - 266) / 256) 0 = .outer ((n - 266) / 256)) := by
    rintro (huse | heq)
    · have hlast := huse.2.2
      omega
    · cases heq
  have hcard := hlink.card
  obtain ⟨b, m₂, hlink'⟩ := hlink.reshaped.exists_attached h₀ (fun s hs => .inl (hkeeps s hs))
    hplace' hunused' (by omega)
  have hslots : ∀ t : Slot, (t.InUse n ∨ t = .outer ((n - 266) / 256)) ∨
      t = .double ((n - 266) / 256) 0 ↔ t.InUse (n + 1) := fun t => by
    rw [Slot.inUse_succ hn', Slot.path, if_neg (by omega), if_neg (by omega), hoffset, or_assoc,
      List.mem_cons, List.mem_cons, List.mem_singleton]
    constructor
    · exact fun ht => ht.imp_right .inr
    · rintro (ht | rfl | ht)
      · exact .inl ht
      · exact .inl hindirect2
      · exact .inr ht
  have hmissing : Slot.missing n = 2 := by
    unfold Slot.missing
    split_ifs <;> omega
  have hcard' := hlink'.card
  obtain ⟨m', hgrow, hextended⟩ := hlink'.extended hlink.size hslots (by omega)
  obtain ⟨hadd, hindir, hdirect⟩ := addBlock_of_double (m := m) (i := i) (by omega)
  rw [hcount] at hadd hindir hdirect
  refine ⟨m', ?_, hextended⟩
  have hq : oiIndirect2 (bitvectorClear m freemap a) (inodeAt i) = oiIndirect2 m (inodeAt i) :=
    h.target_clear hindirect2 hlink.isData
  have hm₁ : Ospfs.link m (ospfsBlock (oiIndirect2 m (inodeAt i)) + 4 * ((n - 266) / 256)) a =
      m₁ := hlink.eq.symm
  rw [← hindir] at hm₁
  have houter : (Slot.outer (indirIndex n).toNat).target (bitvectorClear
      (Ospfs.link m (ospfsBlock (oiIndirect2 m (inodeAt i)) + 4 * (indirIndex n).toNat) a)
      freemap b) (inodeAt i) = (Slot.outer ((n - 266) / 256)).target m₁ (inodeAt i) := by
    rw [hm₁, hindir]
    exact hlink.reshaped.target_clear (.inr rfl) hlink'.isData
  rw [hadd, addDouble_new hind (by omega) hlink.pos hlink.alloc hq hlink'.pos
    (hm₁ ▸ hlink'.alloc) houter, hm₁, ← hgrow, hlink'.eq, hdirect, hoffset, cell_double]

theorem Reshaped.le_nblocks (h : Reshaped hi own m₀ (·.InUse n) m) : n ≤ 8192 := by
  have hblocks := g.nblocks_le
  have hle : min n Slot.maxfileblks ≤ g.nblocks := by
    have huse : ∀ k ∈ Finset.range (min n Slot.maxfileblks), (Slot.ofIndex k).InUse n := by
      intro k hk
      have hlt := Finset.mem_range.1 hk
      have hmin := Slot.ofIndex_inUse hlt (min_le_right _ _)
      exact hmin.mono (min_le_left _ _)
    have hcard := Finset.card_le_card_of_injOn
      (fun k => (Slot.ofIndex k).target m (inodeAt i))
      (s := Finset.range (min n Slot.maxfileblks)) (t := Finset.range g.nblocks)
      (fun k hk => Finset.mem_coe.2 (Finset.mem_range.2 (h.isData (huse k hk)).2))
      (fun k hk l hl heq => Slot.ofIndex_injective
        (h.spans.injective _ _ (huse k hk) (huse l hl) heq))
    simpa using hcard
  have hmax : (8192 : Nat) < Slot.maxfileblks := by decide
  omega

/-- Enough free blocks for one more block. -/
theorem Reshaped.addBlock (h : Reshaped hi own m₀ (·.InUse n) m)
    (h₀ : WellFormed g m₀ own i) (hcount : blockCount m i = n) (hle : blockCount m₀ i ≤ n)
    (hn : n < 266 ∨ 522 ≤ n) (hroom : Slot.missing n ≤ (freeBlocks g m).card) :
    ∃ m', addBlock m (inodeAt i) = (none, m') ∧ Extended hi own m₀ n m m' := by
  have hlimit := h.le_nblocks
  have hmax : n < Slot.maxfileblks := Nat.lt_of_le_of_lt hlimit (by decide)
  unfold Slot.missing at hroom
  split_ifs at hroom with hten hsingle houter
  · subst hten
    exact h.addIndirect h₀ hcount hle hroom
  · omega
  · exact h.addOuter h₀ hcount hle (by omega) hmax houter.2 hroom
  · rcases Nat.lt_trichotomy n 10 with hlt | heq | hgt
    · exact h.addDirect h₀ hcount hle hlt hroom
    · exact absurd heq hten
    · rcases hn with hlt | hge
      · exact h.addSingle h₀ hcount hle hgt hlt hroom
      · exact h.addDouble h₀ hcount hle hge hmax (fun hzero => houter ⟨by omega, hzero⟩) hroom

end Add

/-! ## Growing by one block -/

/-- The block that `ospfs_inode_blockno` finds for a block of a file. -/
def fileBlock (m : Memory) (i blockno : Nat) : Nat :=
  ospfsInodeBlockno m (inodeAt i) (1024 * blockno)

/-- A file has one more block, which is empty, and nothing else changes. -/
structure Grown (g : Geometry) (own : Nat → Prop) (i : Nat) (m m' : Memory) : Prop where
  count : blockCount m' i = blockCount m i + 1
  added : (ledger g m own).Free (fileBlock m' i (blockCount m i))
  zero : ∀ a ∈ blockBytes (fileBlock m' i (blockCount m i)), m' a = 0
  kept : ∀ k < blockCount m i, fileBlock m' i k = fileBlock m i k
  contents : ∀ k < blockCount m i, ∀ a ∈ blockBytes (fileBlock m i k), m' a = m a
  metadata : ∀ a < 1024 * g.firstData, a ∉ blockBytes 2 → a ∉ pointerBytes i → m' a = m a
  others : ∀ j s b, j ≠ i → Owns m own (j, s) b → ∀ a ∈ blockBytes b, m' a = m a

theorem fileBlock_eq (h : oiFtype m (inodeAt i) ≠ ftypeSymlink)
    (hlt : 1024 * b < oiSize m (inodeAt i)) :
    fileBlock m i b = (Slot.ofIndex b).target m (inodeAt i) := by
  rw [fileBlock, ospfsInodeBlockno_eq hlt h, Nat.mul_div_cancel_left b (by decide)]

theorem fileBlock_of_le (hle : oiSize m (inodeAt i) ≤ 1024 * b) : fileBlock m i b = 0 :=
  if_pos (.inl hle)

theorem mul_lt_of_lt_blockCount (h : b < blockCount m i) :
    1024 * b < oiSize m (inodeAt i) := by
  have hlt : oiSize m (inodeAt i) < 2 ^ 32 := load32_lt m _
  unfold blockCount ospfsSize2nblocks at h
  omega

theorem ospfsSize2nblocks_succ {size : Nat} (h : size ≤ 1024 * Slot.maxfileblks) :
    ospfsSize2nblocks ((size + 1024) % 2 ^ 32) = ospfsSize2nblocks size + 1 := by
  unfold Slot.maxfileblks at h
  unfold ospfsSize2nblocks
  omega

/-- Blocks of other files, and data blocks, are not reached. -/
theorem Stored.not_mem_reach_of_owns {lossless : Prop} (h : Stored lossless g m own)
    (hi : i < g.ninodes) {j : Nat} (howns : Owns m own (j, s) b)
    (hother : j ≠ i ∨ ¬ s.IsMeta) (ha : a ∈ blockBytes b) : a ∉ reach g m own i := by
  have hdata : g.IsData b := h.safe.held_mem _ _ howns
  rintro (hpointer | hbitmap | ⟨c, hc, hbit, hmem⟩ | ⟨t, c, hmeta, howns', hmem⟩)
  · exact not_mem_blockBytes_of_inode hdata hi (pointerBytes_subset i hpointer) ha
  · have hthree := hdata.three_lt
    exact not_mem_blockBytes_of_ne (by omega) hbitmap ha
  · refine not_mem_blockBytes_of_ne ?_ hmem ha
    rintro rfl
    exact h.safe.held_not_free _ _ howns ⟨hc, hbit⟩
  · refine not_mem_blockBytes_of_ne ?_ hmem ha
    rintro rfl
    have hplace := h.safe.once _ _ _ howns howns'
    simp only [Prod.mk.injEq] at hplace
    rcases hother with hne | hnot
    · exact hne hplace.1
    · exact hnot (hplace.2 ▸ hmeta)

/-- Of the metadata only the bitmap and the pointers of the file are reached. -/
theorem Stored.not_mem_reach_of_metadata {lossless : Prop} (h : Stored lossless g m own)
    (ha : a < 1024 * g.firstData) (hbitmap : a ∉ blockBytes 2) (hpointer : a ∉ pointerBytes i) :
    a ∉ reach g m own i := by
  have hdata : ∀ b, g.IsData b → a ∉ blockBytes b := fun b hb hmem => by
    have hfirst := hb.1
    have hlow := (Set.mem_Ico.1 hmem).1
    omega
  rintro (hmem | hmem | ⟨c, hc, hbit, hmem⟩ | ⟨t, c, -, howns, hmem⟩)
  · exact hpointer hmem
  · exact hbitmap hmem
  · exact hdata c (h.safe.free_mem c ⟨hc, hbit⟩) hmem
  · exact hdata c (h.safe.held_mem _ c howns) hmem

theorem WellFormed.ofIndex_inUse (h : WellFormed g m own i) {k : Nat}
    (hk : k < blockCount m i) : (Slot.ofIndex k).InUse (blockCount m i) := by
  have hlimit := (Reshaped.refl h).le_nblocks
  exact Slot.ofIndex_inUse hk (hlimit.trans (by decide))

theorem Extended.grown (h : WellFormed g m own i)
    (he : Extended h.lt own m (blockCount m i) m m') : Grown g own i m m' := by
  have hsize := (h.stored.file i h.owner).size_le
  have hmax := hsize
  unfold Slot.maxfileblks at hmax
  have hr := he.reshaped
  have hlimit := hr.le_nblocks
  have hcount : blockCount m' i = blockCount m i + 1 := by
    unfold blockCount
    rw [he.size, ospfsSize2nblocks_succ hsize]
  have hftype : oiFtype m' (inodeAt i) ≠ ftypeSymlink := by
    have hfield : oiFtype m' (inodeAt i) = oiFtype m (inodeAt i) :=
      h.stored.field_of_reach h.lt hr.changes (by decide) (by decide)
    rw [hfield]
    exact (h.stored.file i h.owner).ftype
  have hblock : ∀ k < blockCount m i,
      fileBlock m i k = (Slot.ofIndex k).target m (inodeAt i) := fun k hk =>
    fileBlock_eq (h.stored.file i h.owner).ftype (mul_lt_of_lt_blockCount hk)
  have hblock' : ∀ k < blockCount m i + 1,
      fileBlock m' i k = (Slot.ofIndex k).target m' (inodeAt i) := fun k hk =>
    fileBlock_eq hftype (mul_lt_of_lt_blockCount (hcount.symm ▸ hk))
  have huse : (Slot.ofIndex (blockCount m i)).InUse (blockCount m i + 1) :=
    Slot.ofIndex_inUse (Nat.lt_succ_self _) (hlimit.trans (by decide))
  have hunused : ¬ (Slot.ofIndex (blockCount m i)).InUse (blockCount m i) := by
    unfold Slot.ofIndex
    split_ifs <;> simp only [Slot.InUse] <;> omega
  have hlast := hblock' (blockCount m i) (Nat.lt_succ_self _)
  refine ⟨hcount, ?_, ?_, ?_, ?_, ?_, ?_⟩
  · rw [hlast]
    exact hr.fresh _ huse hunused
  · rw [hlast]
    exact hr.erased _ huse hunused (Slot.ofIndex_not_isMeta _)
  · intro k hk
    have hin := h.ofIndex_inUse hk
    rw [hblock k hk, hblock' k (by omega)]
    exact hr.kept _ (hin.mono (Nat.le_succ _)) hin
  · intro k hk a ha
    rw [hblock k hk] at ha
    exact hr.changes a (h.stored.not_mem_reach_of_owns h.lt (h.owns (h.ofIndex_inUse hk))
      (.inr (Slot.ofIndex_not_isMeta k)) ha)
  · intro a ha hbitmap hpointer
    exact hr.changes a (h.stored.not_mem_reach_of_metadata ha hbitmap hpointer)
  · intro j s b hij howns a ha
    exact hr.changes a (h.stored.not_mem_reach_of_owns h.lt howns (.inl hij) ha)

/-! ## The first indirect block below the doubly indirect block -/

/-- For these blocks the index of a pointer is at least 256. -/
theorem addBlock_of_first (hn : 266 ≤ blockCount m i) (hn' : blockCount m i < 522) :
    addBlock m (inodeAt i) = addDouble m (inodeAt i) (blockCount m i) ∧
      (indirIndex (blockCount m i)).toNat = 0 ∧
      directIndex (blockCount m i) = blockCount m i - 10 := by
  have hindir2 : indir2Index (blockCount m i) = 0 := if_neg (by omega)
  have hindir : indirIndex (blockCount m i) = 0 := by
    unfold indirIndex
    rw [if_neg (by omega), if_pos hindir2]
    omega
  refine ⟨?_, ?_, ?_⟩
  · simp only [addBlock, ← blockCount_eq, hindir2, if_true]
  · rw [hindir]
    rfl
  · unfold directIndex
    rw [hindir, if_neg (by decide), if_pos rfl]

/-- A pointer beside the word at `a` stays when a block is linked there. -/
theorem target_grow {hi : i < g.ninodes} (h : (fileTree g i hi).Spans m U) (hb : g.IsData b)
    (hother : ∀ t, U t → t.target m (inodeAt i) ≠ b)
    (hword : ∀ t, U t → ∀ x ∈ Set.Ico a (a + 4), x ∉ (fileTree g i hi).word m t)
    (hs : (fileTree g i hi).InPlace U s)
    (hword' : ∀ x ∈ Set.Ico a (a + 4), x ∉ (fileTree g i hi).word m s) (v : Nat) :
    s.target (setOiSize (link m a b) (inodeAt i) v) (inodeAt i) = s.target m (inodeAt i) := by
  have hchanges : ChangesOnly (blockBytes 2 ∪ Set.Ico a (a + 4) ∪ blockBytes b ∪
      Set.Ico (inodeAt i) (inodeAt i + 16)) m (setOiSize (link m a b) (inodeAt i) v) := by
    refine ((link_changesOnly hb m a).mono Set.subset_union_left).trans
      ((store32_changesOnly _ (inodeAt i) v).mono fun x hx => .inr ?_)
    simp only [Set.mem_Ico] at *
    omega
  have hout : ∀ t, (fileTree g i hi).InPlace U t →
      (∀ x ∈ Set.Ico a (a + 4), x ∉ (fileTree g i hi).word m t) →
      ∀ x ∈ blockBytes 2 ∪ Set.Ico a (a + 4) ∪ blockBytes b ∪
        Set.Ico (inodeAt i) (inodeAt i + 16), x ∉ (fileTree g i hi).word m t := by
    rintro t ht hbeside x (((hbitmap | hx) | hblock) | hfield) hmem
    · exact FileTree.word_bitmap h ht hmem hbitmap
    · exact hbeside x hx hmem
    · exact FileTree.word_block h ht hb (fun p hparent => hother p (ht.2 p hparent)) hmem hblock
    · exact FileTree.word_field h ht hmem hfield
  exact h.target_eq_of_inPlace hchanges
    (fun t ht => hout t (h.inPlace t ht) (hword t ht)) hs (hout s hs hword')

/-- A block is linked at a word from which `ospfs_inode_blockno` does not read. -/
structure Misplaced (g : Geometry) (i : Nat) (m m' : Memory) : Prop where
  size : oiSize m' (inodeAt i) = oiSize m (inodeAt i)
  target : ∀ v, (Slot.double 0 (blockCount m i - 266)).target
    (setOiSize m' (inodeAt i) v) (inodeAt i) = 0
  frame : ∀ a < 1024 * g.firstData, a ∉ Set.Ico 1024 1028 → a ∉ blockBytes 2 →
    a ∉ pointerBytes i → m' a = m a

theorem not_mem_blockBytes_of_lt (hb : g.IsData b) (ha : a < 1024 * g.firstData) :
    a ∉ blockBytes b := fun hmem => by
  have hfirst := hb.1
  have hlow := (Set.mem_Ico.1 hmem).1
  omega

/-- The first block is linked at a word of the superblock. -/
theorem addBlock_266 (h : WellFormed g m own i) (hcount : blockCount m i = 266)
    (hroom : 2 ≤ (freeBlocks g m).card) :
    ∃ m', addBlock m (inodeAt i) = grow m' (inodeAt i) ∧ Misplaced g i m m' := by
  have hr := Reshaped.refl h
  rw [hcount] at hr
  have hplace : (fileTree g i h.lt).InPlace (·.InUse 266) .indirect2 := ⟨trivial, nofun⟩
  have hunused : ¬ Slot.indirect2.InUse 266 := Nat.lt_irrefl 266
  have hkeeps : ∀ s : Slot, s.InUse (blockCount m i) → s.InUse 266 := fun s => .mono hcount.le
  have hind : oiIndirect2 m (inodeAt i) = 0 := hr.tidy _ hplace hunused
  obtain ⟨a, m₁, hlink⟩ := hr.exists_attached h hkeeps hplace hunused (by omega)
  have hcard := hlink.card
  have hr₁ := hlink.reshaped
  have hroom₁ : 0 < (freeBlocks g m₁).card := by omega
  obtain ⟨b, hfree, halloc⟩ := allocateBlock_of_room own (hr₁.fits h) hroom₁
  have hb : g.IsData b :=
    h.stored.safe.free_mem b (hr₁.free_before (fun s hs => .inl (hkeeps s hs)) hfree)
  have hother := ((hr₁.free_iff b hfree.1).1 hfree.2).2
  have hthree := hb.three_lt
  have hlast := hb.2
  have hblocks := g.nblocks_le
  have houter : (fileTree g i h.lt).InPlace (fun t => t.InUse 266 ∨ t = .indirect2)
      (.outer 0) := by
    refine ⟨Nat.zero_lt_succ 255, fun p hparent => ?_⟩
    cases hparent
    exact .inr rfl
  have hzero : (Slot.outer 0).target m₁ (inodeAt i) = 0 := by
    refine hr₁.tidy _ houter ?_
    rintro (huse | heq)
    · exact absurd huse.2 (by decide)
    · cases heq
  have hzero' : (Slot.outer 0).target (bitvectorClear m₁ freemap b) (inodeAt i) = 0 :=
    (hr₁.spans.target_eq_of_inPlace (bitvectorClear_changesOnly (by omega))
      (fun t ht x hx hmem => FileTree.word_bitmap hr₁.spans (hr₁.spans.inPlace t ht) hmem hx)
      houter (fun x hx hmem => FileTree.word_bitmap hr₁.spans houter hmem hx)).trans hzero
  obtain ⟨hadd, hindir, hdirect⟩ := addBlock_of_first (m := m) (i := i) (by omega) (by omega)
  rw [hcount] at hadd hindir hdirect
  have hm₁ : link m (inodeAt i + 60) a = m₁ := hlink.eq.symm
  have hinode : 3072 ≤ inodeAt i := Nat.le_add_right _ _
  have hfirst := inode_le_of_isData hb h.lt
  refine ⟨link m₁ 1024 b, ?_, ?_, fun v => ?_, fun x hx hsuper hbitmap hpointer => ?_⟩
  · have hpos : b ≠ 0 := by omega
    have hzero₁ : (Slot.outer (indirIndex 266).toNat).target
        (bitvectorClear (link m (inodeAt i + 60) a) freemap b) (inodeAt i) = 0 := by
      rw [hm₁, hindir]
      exact hzero'
    rw [hadd, addDouble_first hind (by omega) hlink.pos hlink.alloc hpos (hm₁.symm ▸ halloc)
      hzero₁, hm₁, hdirect]
    rfl
  · refine Eq.trans ((link_changesOnly hb m₁ 1024).load32 fun d hd hmem => ?_) hlink.size
    simp only [blockBytes, Set.mem_union, Set.mem_Ico] at hmem
    omega
  · have hbelow : ∀ t, (fileTree g i h.lt).InPlace (fun t => t.InUse 266 ∨ t = .indirect2) t →
        ∀ x ∈ Set.Ico 1024 (1024 + 4), x ∉ (fileTree g i h.lt).word m₁ t := fun t ht x hx hmem => by
      have hlow := FileTree.le_of_word hr₁.spans ht hmem
      have hhigh := (Set.mem_Ico.1 hx).2
      omega
    have houter' := (target_grow hr₁.spans hb hother
      (fun t ht => hbelow t (hr₁.spans.inPlace t ht)) houter (hbelow _ houter) v).trans hzero
    rw [hcount, Nat.sub_self, ← Reshaped.load32_cell h.lt, cell_double, houter']
    refine load32_eq_zero fun d hd => ?_
    have hboot := h.stored.boot d (by omega)
    have hreach : d ∉ reach g m own i := fun hmem => by
      have hlow := h.stored.le_of_reach hmem
      omega
    rw [← hr₁.changes d hreach] at hboot
    have hsize := store32_changesOnly (link m₁ 1024 b) (inodeAt i) v d
      (by simp only [Set.mem_Ico]; omega)
    have hlinked := link_changesOnly hb m₁ 1024 d (by
      simp only [blockBytes, Set.mem_union, Set.mem_Ico]
      omega)
    simp only [ospfsBlock, Nat.zero_mul, Nat.zero_mod, Nat.mul_zero, Nat.zero_add]
    exact hsize.trans (hlinked.trans hboot)
  · refine (link_changesOnly hb m₁ 1024 x ?_).trans
      (hr₁.changes x (h.stored.not_mem_reach_of_metadata hx hbitmap hpointer))
    rintro ((hmem | hmem) | hmem)
    · exact hbitmap hmem
    · exact hsuper hmem
    · exact not_mem_blockBytes_of_lt hb hx hmem

/-- The next ones are linked at words of the block after the indirect block. -/
theorem addBlock_267 (h : WellFormed g m own i) (hn : 266 < blockCount m i)
    (hn' : blockCount m i < 522) (hroom : 0 < (freeBlocks g m).card) :
    ∃ m', addBlock m (inodeAt i) = grow m' (inodeAt i) ∧ Misplaced g i m m' := by
  have hr := Reshaped.refl h
  obtain ⟨b, hfree, halloc⟩ := allocateBlock_of_room own h.stored.fits hroom
  have hb : g.IsData b := h.stored.safe.free_mem b hfree
  have hthree := hb.three_lt
  have hpos : b ≠ 0 := by omega
  have huse : (Slot.outer 0).InUse (blockCount m i) := ⟨by decide, hn⟩
  have huse' : Slot.indirect2.InUse (blockCount m i) := huse.parent rfl
  have hdata := h.isData huse
  have hdata' := h.isData huse'
  have hind : oiIndirect2 m (inodeAt i) ≠ 0 := by
    have hthree' : 3 ≤ oiIndirect2 m (inodeAt i) := hdata'.three_lt
    omega
  set d := (Slot.outer 0).target m (inodeAt i) with hd
  set e := Slot.indirect2.target m (inodeAt i) with he
  have hclear : (Slot.outer 0).target (bitvectorClear m freemap b) (inodeAt i) = d :=
    hr.target_clear huse hb
  obtain ⟨hadd, hindir, hdirect⟩ := addBlock_of_first (m := m) (i := i) (by omega) hn'
  have hclear' : (Slot.outer (indirIndex (blockCount m i)).toNat).target
      (bitvectorClear m freemap b) (inodeAt i) = d := by
    rw [hindir]
    exact hclear
  set x := ospfsBlock d + 4 * (blockCount m i - 10) with hx
  have hfirst := inode_le_of_isData hdata h.lt
  have hfirst' := inode_le_of_isData hb h.lt
  refine ⟨link m x b, ?_, ?_, fun v => ?_, fun y hy _ hbitmap _ => ?_⟩
  · rw [hadd, addDouble_link hind (by omega) hpos halloc hclear', hdirect]
  · rw [hdata.block] at hx
    refine (link_changesOnly hb m x).load32 fun d hd hmem => ?_
    have hlow : 3072 ≤ inodeAt i := Nat.le_add_right _ _
    simp only [blockBytes, Set.mem_union, Set.mem_Ico] at hmem
    omega
  · -- the words on the way to the block, which are all that is known to stay
    have hspans : (fileTree g i h.lt).Spans m fun t => t = .indirect2 ∨ t = .outer 0 := by
      refine hr.spans.restrict (fun t ht => ?_) fun t p ht hparent => ?_
      · rcases ht with rfl | rfl
        · exact huse'
        · exact huse
      · rcases ht with rfl | rfl
        · cases hparent
        · cases hparent
          exact .inl rfl
    have hplace : (fileTree g i h.lt).InPlace (fun t => t = .indirect2 ∨ t = .outer 0)
        (.double 0 (blockCount m i - 266)) := by
      refine ⟨⟨by decide, by omega⟩, fun p hparent => ?_⟩
      cases hparent
      exact .inr rfl
    have hother : ∀ t : Slot, t = .indirect2 ∨ t = .outer 0 → t.target m (inodeAt i) ≠ b := by
      rintro t (rfl | rfl) heq
      · exact ((hr.free_iff b hfree.1).1 hfree.2).2 _ huse' heq
      · exact ((hr.free_iff b hfree.1).1 hfree.2).2 _ huse heq
    have hne : d ≠ e := fun heq => by
      have hslot := hr.spans.injective _ _ huse huse' heq
      cases hslot
    have hinode := inode_le_of_isData hdata h.lt
    have hcell : (fileTree g i h.lt).cell m (.double 0 (blockCount m i - 266)) =
        1024 * d + 4 * (blockCount m i - 266) := by
      rw [cell_double, ← hd, hdata.block]
    have hcell' : (fileTree g i h.lt).cell m (.outer 0) = 1024 * e + 4 * 0 := by
      rw [← hdata'.block]
      rfl
    have hcell₂ : (fileTree g i h.lt).cell m .indirect2 = inodeAt i + 60 := rfl
    rw [hdata.block] at hx
    refine (target_grow hspans hb hother ?_ hplace ?_ _).trans ?_
    · rintro t (rfl | rfl) y hy hmem
      · simp only [PointerTree.word, hcell₂, Set.mem_Ico] at *
        omega
      · simp only [PointerTree.word, hcell', Set.mem_Ico] at *
        omega
    · intro y hy hmem
      simp only [PointerTree.word, hcell, Set.mem_Ico] at *
      omega
    · refine hr.tidy _ (hplace.mono ?_) fun hlt => ?_
      · rintro t (rfl | rfl)
        · exact huse'
        · exact huse
      · have hlast := hlt.2.2
        omega
  · rw [hdata.block] at hx
    refine link_changesOnly hb m x y ?_
    rintro ((hmem | hmem) | hmem)
    · exact hbitmap hmem
    · have hfirstData := hdata.1
      have hlow := (Set.mem_Ico.1 hmem).1
      omega
    · exact not_mem_blockBytes_of_lt hb hy hmem

/-- No more than three blocks are allocated. -/
theorem missing_le (n : Nat) : Slot.missing n ≤ 3 := by
  unfold Slot.missing
  split_ifs <;> decide

theorem not_grown_of_first (h : WellFormed g m own i) (hn : 266 ≤ blockCount m i)
    (hzero : (Slot.double 0 (blockCount m i - 266)).target m' (inodeAt i) = 0)
    (hn' : blockCount m i < 522) : ¬ Grown g own i m m' := by
  intro hgrown
  have hblock : fileBlock m' i (blockCount m i) = 0 := by
    by_cases hsize : 1024 * blockCount m i < oiSize m' (inodeAt i)
    · unfold fileBlock
      by_cases hftype : oiFtype m' (inodeAt i) = ftypeSymlink
      · exact if_pos (.inr hftype)
      · have hindex : Slot.ofIndex (blockCount m i) = .double 0 (blockCount m i - 266) := by
          unfold Slot.ofIndex
          rw [if_neg (by omega), if_neg (by omega), Nat.div_eq_of_lt (by omega),
            Nat.mod_eq_of_lt (by omega)]
        have hfound := fileBlock_eq hftype hsize
        rwa [hindex, hzero] at hfound
    · exact fileBlock_of_le (not_lt.1 hsize)
  have hdata := h.stored.safe.free_mem _ hgrown.added
  rw [hblock] at hdata
  exact absurd (Geometry.IsData.three_lt hdata) (by decide)

theorem addBlock_not_grown (h : WellFormed g m own i) (hn : 266 ≤ blockCount m i)
    (hn' : blockCount m i < 522) (hroom : 3 ≤ (freeBlocks g m).card) :
    ¬ Grown g own i m (addBlock m (inodeAt i)).2 := by
  have hfirst : ∃ m', addBlock m (inodeAt i) = grow m' (inodeAt i) ∧ Misplaced g i m m' := by
    rcases Nat.lt_or_eq_of_le hn with hlt | heq
    · exact addBlock_267 h hlt hn' (by omega)
    · exact addBlock_266 h heq.symm (by omega)
  obtain ⟨m', hadd, hmisplaced⟩ := hfirst
  rw [hadd]
  exact not_grown_of_first h hn (hmisplaced.target _) hn'

/--
A file grows by one block as it should, unless the block is below the first
indirect block of the doubly indirect block.
-/
theorem addBlock_grown_iff (h : WellFormed g m own i) (hroom : 3 ≤ (freeBlocks g m).card) :
    (addBlock m (inodeAt i)).1 = none ∧ Grown g own i m (addBlock m (inodeAt i)).2 ↔
      blockCount m i < 266 ∨ 522 ≤ blockCount m i := by
  constructor
  · rintro ⟨-, hgrown⟩
    by_contra hn
    exact addBlock_not_grown h (by omega) (by omega) hroom hgrown
  · intro hn
    obtain ⟨m', hadd, hextended⟩ := (Reshaped.refl h).addBlock h rfl le_rfl hn
      ((missing_le _).trans hroom)
    rw [hadd]
    exact ⟨rfl, hextended.grown h⟩

theorem addBlock_grown_iff_eleven :
    (addBlock (oneFile 11 64) (inodeAt 2)).1 = none ∧
      Grown oneFileGeometry (· = 2) 2 (oneFile 11 64) (addBlock (oneFile 11 64) (inodeAt 2)).2 :=
  (addBlock_grown_iff (oneFile_wellFormed (by decide) (by decide)) (by
    rw [card_freeBlocks_oneFile]
    decide)).2 (.inl (by
      rw [blockCount_oneFile (by decide)]
      decide))

/-- The pointer to block 266 is not where it is read. -/
theorem block266_not_grown :
    WellFormed oneFileGeometry (oneFile 266 300) (· = 2) 2 ∧
      3 ≤ (freeBlocks oneFileGeometry (oneFile 266 300)).card ∧
      ¬ ((addBlock (oneFile 266 300) (inodeAt 2)).1 = none ∧
        Grown oneFileGeometry (· = 2) 2 (oneFile 266 300)
          (addBlock (oneFile 266 300) (inodeAt 2)).2) := by
  have hwell : WellFormed oneFileGeometry (oneFile 266 300) (· = 2) 2 :=
    oneFile_wellFormed (by decide) (by decide)
  have hroom : 3 ≤ (freeBlocks oneFileGeometry (oneFile 266 300)).card := by
    rw [card_freeBlocks_oneFile]
    decide
  have hcount : blockCount (oneFile 266 300) 2 = 266 := blockCount_oneFile (by decide)
  refine ⟨hwell, hroom, fun h => ?_⟩
  exact addBlock_not_grown hwell hcount.ge (hcount.trans_lt (by decide)) hroom h.2

end Cs111Labs.Ospfs
