import Cs111Labs.Ospfs.FileTree

/-!
# Changing the blocks of one file

What the disk has to do with the disk `m₀` from before, while blocks are added to
one file, or taken from it.
-/

namespace Cs111Labs.Ospfs

open Foundation Memory

variable {g : Geometry} {m m' m₀ : Memory} {own : Nat → Prop} {a b c i n : Nat}
  {S : Set Nat} {U U' : Slot → Prop} {s t : Slot}

/-- A file whose blocks are all there; pointers that it does not need are 0. -/
structure WellFormed (g : Geometry) (m : Memory) (own : Nat → Prop) (i : Nat) : Prop where
  stored : Stored False g m own
  owner : own i
  filled : Filled m i
  tidy : ∀ s : Slot, s.Valid → (∀ p, s.parent = some p → p.InUse (blockCount m i)) →
    ¬ s.InUse (blockCount m i) → s.target m (inodeAt i) = 0

theorem WellFormed.lt (h : WellFormed g m own i) : i < g.ninodes :=
  h.stored.owners i h.owner

theorem WellFormed.owns (h : WellFormed g m own i) (hs : s.InUse (blockCount m i)) :
    Owns m own (i, s) (s.target m (inodeAt i)) :=
  ⟨h.owner, hs, rfl, h.filled s hs⟩

theorem WellFormed.isData (h : WellFormed g m own i) (hs : s.InUse (blockCount m i)) :
    g.IsData (s.target m (inodeAt i)) :=
  h.stored.safe.held_mem _ _ (h.owns hs)

/-- The file holds the slots `U`, and other files are as in `m₀`. -/
structure Reshaped (hi : i < g.ninodes) (own : Nat → Prop) (m₀ : Memory) (U : Slot → Prop)
    (m : Memory) : Prop where
  spans : (fileTree g i hi).Spans m U
  changes : ChangesOnly (reach g m₀ own i) m₀ m
  kept : ∀ s : Slot, U s → s.InUse (blockCount m₀ i) →
    s.target m (inodeAt i) = s.target m₀ (inodeAt i)
  fresh : ∀ s : Slot, U s → ¬ s.InUse (blockCount m₀ i) →
    (ledger g m₀ own).Free (s.target m (inodeAt i))
  erased : ∀ s : Slot, U s → ¬ s.InUse (blockCount m₀ i) → ¬ s.IsMeta →
    ∀ a ∈ blockBytes (s.target m (inodeAt i)), m a = 0
  free_iff : ∀ c < g.nblocks, bitvectorTest m freemap c = true ↔
    (bitvectorTest m₀ freemap c = true ∨
      ∃ s : Slot, s.InUse (blockCount m₀ i) ∧ s.target m₀ (inodeAt i) = c) ∧
    ∀ s : Slot, U s → s.target m (inodeAt i) ≠ c
  tidy : ∀ s, (fileTree g i hi).InPlace U s → ¬ U s → s.target m (inodeAt i) = 0

namespace Reshaped

variable {hi : i < g.ninodes}

theorem refl (h : WellFormed g m own i) :
    Reshaped h.lt own m (·.InUse (blockCount m i)) m where
  spans := by
    refine ⟨fun s hs => ⟨hs.valid, fun p hparent => hs.parent hparent⟩,
      fun s hs => h.isData hs, fun s t hs ht heq => ?_⟩
    have howns := h.owns ht
    have hsame : s.target m (inodeAt i) = t.target m (inodeAt i) := heq
    rw [← hsame] at howns
    have hplace := h.stored.safe.once _ _ _ (h.owns hs) howns
    exact congrArg Prod.snd hplace
  changes := .refl m
  kept s _ _ := rfl
  fresh s hs hnot := absurd hs hnot
  erased s hs hnot := absurd hs hnot
  free_iff c hc := by
    constructor
    · intro hbit
      refine ⟨.inl hbit, fun s hs heq => ?_⟩
      exact h.stored.safe.held_not_free _ _ (h.owns hs) ⟨by omega, by rwa [heq]⟩
    · rintro ⟨hbit | ⟨s, hs, heq⟩, hother⟩
      · exact hbit
      · exact absurd heq (hother s hs)
  tidy s hs := h.tidy s hs.1 hs.2

theorem congr (h : Reshaped hi own m₀ U m) (heq : ∀ s, U s ↔ U' s) :
    Reshaped hi own m₀ U' m := by
  rwa [funext fun s => propext (heq s)] at h

theorem isData (h : Reshaped hi own m₀ U m) (hs : U s) :
    g.IsData (s.target m (inodeAt i)) :=
  h.spans.data s hs

theorem fits (h : Reshaped hi own m₀ U m) (h₀ : WellFormed g m₀ own i) : g.Fits m :=
  h₀.stored.fits.changesOnly h.changes fun a ha => by
    have hlow := h₀.stored.le_of_reach ha
    simp only [blockBytes, Set.mem_Ico]
    omega

/-- A pointer of the file may be changed. -/
theorem word_reach (h : Reshaped hi own m₀ U m) (h₀ : WellFormed g m₀ own i)
    (hs : (fileTree g i hi).InPlace U s) (ha : a ∈ (fileTree g i hi).word m s) :
    a ∈ reach g m₀ own i := by
  rcases h.spans.mem_word hs ha with ⟨-, hroot⟩ | ⟨p, hparent, hp, hmem⟩
  · exact .inl hroot
  · by_cases huse : p.InUse (blockCount m₀ i)
    · have heq : p.target m (inodeAt i) = p.target m₀ (inodeAt i) := h.kept p hp huse
      refine .inr (.inr (.inr ⟨p, _, Slot.isMeta_of_parent hparent, h₀.owns huse, ?_⟩))
      rwa [← heq]
    · obtain ⟨hlt, hbit⟩ := h.fresh p hp huse
      exact .inr (.inr (.inl ⟨_, hlt, hbit, hmem⟩))

/-- A free block was free before, while the file has what it had. -/
theorem free_before (h : Reshaped hi own m₀ U m)
    (hkeeps : ∀ s : Slot, s.InUse (blockCount m₀ i) → U s) (hb : (ledger g m own).Free b) :
    (ledger g m₀ own).Free b := by
  obtain ⟨hlt, hbit⟩ := hb
  obtain ⟨hbefore | ⟨s, hs, heq⟩, hother⟩ := (h.free_iff b hlt).1 hbit
  · exact ⟨hlt, hbefore⟩
  · exact absurd ((h.kept s (hkeeps s hs) hs).trans heq) (hother s (hkeeps s hs))

theorem load32_cell (hi : i < g.ninodes) (m : Memory) (s : Slot) :
    load32 m ((fileTree g i hi).cell m s) = s.target m (inodeAt i) :=
  (fileTree g i hi).load32_cell m s

/-- A free block is put at an unused slot of the file. -/
theorem link (h : Reshaped hi own m₀ U m) (h₀ : WellFormed g m₀ own i)
    (hkeeps : ∀ s : Slot, s.InUse (blockCount m₀ i) → U s)
    (hs : (fileTree g i hi).InPlace U s) (hnew : ¬ U s) (hfree : (ledger g m own).Free b) :
    Reshaped hi own m₀ (fun t => U t ∨ t = s)
      (Ospfs.link m ((fileTree g i hi).cell m s) b) := by
  have hbefore := h.free_before hkeeps hfree
  have hb : g.IsData b := h₀.stored.safe.free_mem b hbefore
  have hblocks := g.nblocks_le
  have hother : ∀ t, U t → t.target m (inodeAt i) ≠ b :=
    ((h.free_iff b hfree.1).1 hfree.2).2
  have hparents : ∀ {t : Slot}, (fileTree g i hi).InPlace U t →
      ∀ p, t.parent = some p → p.target m (inodeAt i) ≠ b := fun ht p hparent =>
    hother p (ht.2 p hparent)
  set a := (fileTree g i hi).cell m s with ha
  have hword : ∀ x ∈ Set.Ico a (a + 4), x ∈ (fileTree g i hi).word m s := fun x hx => hx
  have hchanges := link_changesOnly hb m a
  have hout : ∀ t, (fileTree g i hi).InPlace U t → t ≠ s →
      ∀ x ∈ blockBytes 2 ∪ Set.Ico a (a + 4) ∪ blockBytes b,
        x ∉ (fileTree g i hi).word m t := by
    rintro t ht hne x ((hbitmap | hx) | hblock) hmem
    · exact FileTree.word_bitmap h.spans ht hmem hbitmap
    · exact h.spans.word_apart hs ht (Ne.symm hne) (hword x hx) hmem
    · exact FileTree.word_block h.spans ht hb (hparents ht) hmem hblock
  have houtU : ∀ t, U t → ∀ x ∈ blockBytes 2 ∪ Set.Ico a (a + 4) ∪ blockBytes b,
      x ∉ (fileTree g i hi).word m t := fun t ht =>
    hout t (h.spans.inPlace t ht) fun heq => hnew (heq ▸ ht)
  have hsame : ∀ t : Slot, U t →
      t.target (Ospfs.link m a b) (inodeAt i) = t.target m (inodeAt i) :=
    fun t ht => h.spans.target_eq hchanges houtU ht
  have hcell : ∀ t, (fileTree g i hi).InPlace U t →
      (fileTree g i hi).cell (Ospfs.link m a b) t = (fileTree g i hi).cell m t :=
    fun t ht => h.spans.cell_eq hchanges houtU ht
  have htarget : s.target (Ospfs.link m a b) (inodeAt i) = b := by
    rw [← load32_cell hi, hcell s hs]
    exact load32_link hb fun x hx =>
      FileTree.word_block h.spans hs hb (hparents hs) (hword x hx)
  have hspans := h.spans.frame hchanges houtU
  have hdata' : g.IsData (s.target (Ospfs.link m a b) (inodeAt i)) := by
    rw [htarget]
    exact hb
  refine ⟨hspans.attach hs hdata' ?_, h.changes.trans (hchanges.mono ?_), ?_, ?_, ?_, ?_, ?_⟩
  · exact fun t ht heq => hother t ht ((hsame t ht).symm.trans (heq.trans htarget))
  · rintro x ((hbitmap | hx) | hblock)
    · exact .inr (.inl hbitmap)
    · exact h.word_reach h₀ hs (hword x hx)
    · exact .inr (.inr (.inl ⟨b, hbefore.1, hbefore.2, hblock⟩))
  · rintro t (ht | rfl) huse
    · exact (hsame t ht).trans (h.kept t ht huse)
    · exact absurd (hkeeps t huse) hnew
  · rintro t (ht | rfl) huse
    · rw [hsame t ht]
      exact h.fresh t ht huse
    · rw [htarget]
      exact hbefore
  · rintro t (ht | rfl) huse hdata x hx
    · rw [hsame t ht] at hx
      rw [hchanges x ?_]
      · exact h.erased t ht huse hdata x hx
      · rintro ((hbitmap | hmem) | hblock)
        · have hthree := (h.isData ht).three_lt
          exact not_mem_blockBytes_of_ne (by omega) hbitmap hx
        · refine FileTree.word_block h.spans hs (h.spans.data t ht) ?_ (hword x hmem) hx
          rintro p hparent heq
          have hpt := h.spans.injective p t (hs.2 p hparent) ht heq
          exact hdata (hpt ▸ Slot.isMeta_of_parent hparent)
        · exact not_mem_blockBytes_of_ne (hother t ht) hx hblock
    · rw [htarget] at hx
      exact link_zero hb hx
  · intro c hc
    rw [bitvectorTest_link hb (fun x hx => FileTree.word_bitmap h.spans hs (hword x hx))
      (by omega), Bool.and_eq_true, decide_eq_true_eq, h.free_iff c hc]
    constructor
    · rintro ⟨⟨hpool, hnot⟩, hne⟩
      refine ⟨hpool, ?_⟩
      rintro t (ht | rfl)
      · rw [hsame t ht]
        exact hnot t ht
      · rw [htarget]
        exact Ne.symm hne
    · rintro ⟨hpool, hnot⟩
      refine ⟨⟨hpool, fun t ht => ?_⟩, ?_⟩
      · rw [← hsame t ht]
        exact hnot t (.inl ht)
      · have hne := hnot s (.inr rfl)
        rw [htarget] at hne
        exact Ne.symm hne
  · intro t ht hnot
    have hts : t ≠ s := fun heq => hnot (.inr heq)
    by_cases hbelow : t.parent = some s
    · have hindex := ht.1.index_of_some hbelow
      have hcell' : (fileTree g i hi).cell (Ospfs.link m a b) t =
          ospfsBlock (s.target (Ospfs.link m a b) (inodeAt i)) + t.index :=
        PointerTree.cell_of_some hbelow
      rw [htarget, hb.block] at hcell'
      rw [← load32_cell hi, hcell']
      refine load32_eq_zero fun d hd => link_zero hb ?_
      simp only [blockBytes, Set.mem_Ico]
      omega
    · have htplace : (fileTree g i hi).InPlace U t := by
        refine ⟨ht.1, fun p hparent => (ht.2 p hparent).resolve_right ?_⟩
        rintro rfl
        exact hbelow hparent
      exact (h.spans.target_eq_of_inPlace hchanges houtU htplace (hout t htplace hts)).trans
        (h.tidy t htplace fun ht => hnot (.inl ht))

theorem unlink_changesOnly (h : Reshaped hi own m₀ U m) (h₀ : WellFormed g m₀ own i)
    (hs : U s) : ChangesOnly (blockBytes 2 ∪ (fileTree g i hi).word m s) m
      (Ospfs.unlink m ((fileTree g i hi).cell m s)) :=
  Ospfs.unlink_changesOnly (h.fits h₀) (by
    rw [load32_cell hi]
    exact h.isData hs)

/-- Other words are not touched when a block is given back. -/
theorem unlink_beside (h : Reshaped hi own m₀ U m) (hs : (fileTree g i hi).InPlace U s)
    (ht : (fileTree g i hi).InPlace U t) (hne : t ≠ s) :
    ∀ x ∈ blockBytes 2 ∪ (fileTree g i hi).word m s, x ∉ (fileTree g i hi).word m t := by
  rintro x (hbitmap | hx) hmem
  · exact FileTree.word_bitmap h.spans ht hmem hbitmap
  · exact h.spans.word_apart hs ht (Ne.symm hne) hx hmem

theorem target_unlink (h : Reshaped hi own m₀ U m) (h₀ : WellFormed g m₀ own i) (hs : U s)
    (hleaf : ∀ t : Slot, U t → t.parent ≠ some s) (ht : U t ∧ t ≠ s) :
    t.target (Ospfs.unlink m ((fileTree g i hi).cell m s)) (inodeAt i) =
      t.target m (inodeAt i) :=
  (h.spans.detach hleaf).target_eq (h.unlink_changesOnly h₀ hs)
    (fun t ht => h.unlink_beside (h.spans.inPlace s hs) (h.spans.inPlace t ht.1) ht.2) ht

/-- The block at a slot without slots below is given back. -/
theorem unlink (h : Reshaped hi own m₀ U m) (h₀ : WellFormed g m₀ own i) (hs : U s)
    (hleaf : ∀ t : Slot, U t → t.parent ≠ some s) :
    Reshaped hi own m₀ (fun t => U t ∧ t ≠ s)
      (Ospfs.unlink m ((fileTree g i hi).cell m s)) := by
  have hplace := h.spans.inPlace s hs
  have hblocks := g.nblocks_le
  have hb : g.IsData (load32 m ((fileTree g i hi).cell m s)) := by
    rw [load32_cell hi]
    exact h.isData hs
  have hchanges := h.unlink_changesOnly h₀ hs
  have houtU : ∀ t, U t ∧ t ≠ s → ∀ x ∈ blockBytes 2 ∪ (fileTree g i hi).word m s,
      x ∉ (fileTree g i hi).word m t := fun t ht =>
    h.unlink_beside hplace (h.spans.inPlace t ht.1) ht.2
  have hsame : ∀ t : Slot, U t ∧ t ≠ s →
      t.target (Ospfs.unlink m ((fileTree g i hi).cell m s)) (inodeAt i) =
        t.target m (inodeAt i) := fun t => h.target_unlink h₀ hs hleaf
  have hspans := h.spans.detach hleaf
  refine ⟨hspans.frame hchanges houtU, h.changes.trans (hchanges.mono ?_), ?_, ?_, ?_, ?_, ?_⟩
  · rintro x (hbitmap | hx)
    · exact .inr (.inl hbitmap)
    · exact h.word_reach h₀ hplace hx
  · exact fun t ht huse => (hsame t ht).trans (h.kept t ht.1 huse)
  · intro t ht huse
    rw [hsame t ht]
    exact h.fresh t ht.1 huse
  · intro t ht huse hdata x hx
    rw [hsame t ht] at hx
    have hdata' := h.isData ht.1
    rw [hchanges x ?_]
    · exact h.erased t ht.1 huse hdata x hx
    · rintro (hbitmap | hmem)
      · have hthree := hdata'.three_lt
        exact not_mem_blockBytes_of_ne (by omega) hbitmap hx
      · refine FileTree.word_block h.spans hplace hdata' ?_ hmem hx
        rintro p hparent heq
        have hpt := h.spans.injective p t (hplace.2 p hparent) ht.1 heq
        exact hdata (hpt ▸ Slot.isMeta_of_parent hparent)
  · intro c hc
    rw [bitvectorTest_unlink (h.fits h₀) hb
      (fun x hx => FileTree.word_bitmap h.spans hplace hx) (by omega),
      Bool.or_eq_true, decide_eq_true_eq, h.free_iff c hc, load32_cell hi]
    constructor
    · rintro (⟨hpool, hnot⟩ | rfl)
      · refine ⟨hpool, fun t ht => ?_⟩
        rw [hsame t ht]
        exact hnot t ht.1
      · refine ⟨?_, fun t ht heq => ht.2 (h.spans.injective t s ht.1 hs ?_)⟩
        · by_cases huse : s.InUse (blockCount m₀ i)
          · exact .inr ⟨s, huse, (h.kept s hs huse).symm⟩
          · exact .inl (h.fresh s hs huse).2
        · exact (hsame t ht).symm.trans heq
    · rintro ⟨hpool, hnot⟩
      by_cases hcs : c = s.target m (inodeAt i)
      · exact .inr hcs
      · refine .inl ⟨hpool, fun t ht => ?_⟩
        by_cases hts : t = s
        · rw [hts]
          exact Ne.symm hcs
        · rw [← hsame t ⟨ht, hts⟩]
          exact hnot t ⟨ht, hts⟩
  · intro t ht hnot
    by_cases hts : t = s
    · rw [← load32_cell hi, hspans.cell_eq hchanges houtU ht, hts]
      exact load32_unlink m _
    · have htplace : (fileTree g i hi).InPlace U t := ht.mono fun t => And.left
      exact (hspans.target_eq_of_inPlace hchanges houtU ht
        (h.unlink_beside hplace htplace hts)).trans (h.tidy t htplace fun hU => hnot ⟨hU, hts⟩)

/-- The size of the file is not one of its pointers. -/
theorem setOiSize (h : Reshaped hi own m₀ U m) (v : Nat) :
    Reshaped hi own m₀ U (Ospfs.setOiSize m (inodeAt i) v) := by
  have hchanges : ChangesOnly _ m (Ospfs.setOiSize m (inodeAt i) v) :=
    store32_changesOnly m (inodeAt i) v
  have hlow : 3072 ≤ inodeAt i := Nat.le_add_right _ _
  have hout : ∀ t, (fileTree g i hi).InPlace U t →
      ∀ x ∈ Set.Ico (inodeAt i) (inodeAt i + 4), x ∉ (fileTree g i hi).word m t := by
    intro t ht x hx hmem
    refine FileTree.word_field h.spans ht hmem ?_
    simp only [Set.mem_Ico] at *
    omega
  have houtU : ∀ t, U t → ∀ x ∈ Set.Ico (inodeAt i) (inodeAt i + 4),
      x ∉ (fileTree g i hi).word m t := fun t ht => hout t (h.spans.inPlace t ht)
  have hsame : ∀ t : Slot, U t →
      t.target (Ospfs.setOiSize m (inodeAt i) v) (inodeAt i) = t.target m (inodeAt i) :=
    fun t ht => h.spans.target_eq hchanges houtU ht
  refine ⟨h.spans.frame hchanges houtU, h.changes.trans (hchanges.mono ?_), ?_, ?_, ?_, ?_, ?_⟩
  · intro x hx
    exact .inl (.inl (Set.mem_Ico.1 hx))
  · exact fun t ht huse => (hsame t ht).trans (h.kept t ht huse)
  · intro t ht huse
    rw [hsame t ht]
    exact h.fresh t ht huse
  · intro t ht huse hdata x hx
    rw [hsame t ht] at hx
    have hfirst := inode_le_of_isData (h.isData ht) hi
    rw [hchanges x ?_]
    · exact h.erased t ht huse hdata x hx
    · simp only [blockBytes, Set.mem_Ico] at *
      omega
  · intro c hc
    have hblocks := g.nblocks_le
    rw [bitvectorTest_changesOnly hchanges (fun x hx => ?_) (by omega),
      h.free_iff c hc]
    · refine and_congr_right fun _ => forall_congr' fun t => forall_congr' fun ht => ?_
      rw [← hsame t ht]
    · simp only [blockBytes, Set.mem_Ico] at *
      omega
  · intro t ht hnot
    exact (h.spans.target_eq_of_inPlace hchanges houtU ht (hout t ht)).trans (h.tidy t ht hnot)

end Reshaped

end Cs111Labs.Ospfs
