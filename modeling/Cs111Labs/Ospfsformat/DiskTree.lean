import Cs111Labs.Ospfs.FileTree

/-!
# The block pointers of a disk

The pointers of all files are one tree, with the table of inodes as its root.
While a disk is filled, some of the blocks taken have no pointer yet.
-/

namespace Cs111Labs.Ospfsformat

open Foundation Memory Ospfs

variable {g : Geometry} {m m' m'' : Memory} {U : Nat × Slot → Prop} {P S : Set Nat}
  {nextb a b i j : Nat} {p q : Nat × Slot}

/-- The words of an inode that are pointers, or the text of a symbolic link from its middle on. -/
def wordBytes (i : Nat) : Set Nat := Set.Ico (inodeAt i + 16) (inodeAt i + 64)

theorem wordBytes_subset (i : Nat) : wordBytes i ⊆ inodeBytes i := by
  intro a ha
  simp only [wordBytes, inodeBytes, Set.mem_Ico] at *
  omega

theorem mem_inodeBytes_unique (hi : a ∈ inodeBytes i) (hj : a ∈ inodeBytes j) : i = j := by
  by_contra hne
  exact not_mem_inodeBytes_of_ne hne hi hj

theorem blocks_apart (g : Geometry) : ∀ b c a, g.IsData b → g.IsData c → b ≠ c →
    a ∈ blockBytes b → a ∉ blockBytes c :=
  fun _ _ _ _ _ hne ha => not_mem_blockBytes_of_ne hne ha

/-- The offset of a word from the start of its block, or of the table of inodes from 0 on. -/
abbrev wordOffset (p : Nat × Slot) : Nat :=
  (if p.2.parent = none then inodeAt p.1 else 0) + p.2.index

theorem words_depth_lt (p q : Nat × Slot) (hparent : (p.2.parent.map fun s => (p.1, s)) = some q) :
    q.2.depth < p.2.depth := by
  obtain ⟨i, s⟩ := p
  cases s <;> cases hparent <;> exact Nat.lt_succ_self _

theorem words_apart (g : Geometry) (p q : Nat × Slot) (hp : p.1 < g.ninodes ∧ p.2.Valid)
    (hq : q.1 < g.ninodes ∧ q.2.Valid)
    (hparent : (p.2.parent.map fun s => (p.1, s)) = q.2.parent.map fun s => (q.1, s))
    (hne : p ≠ q) :
    wordOffset p + 4 ≤ wordOffset q ∨ wordOffset q + 4 ≤ wordOffset p := by
  obtain ⟨i, s⟩ := p
  obtain ⟨j, t⟩ := q
  cases hs : s.parent with
  | none =>
      rw [hs] at hparent
      have ht : t.parent = none := by
        cases ht : t.parent with
        | none => rfl
        | some p =>
            simp only [Option.map_none, ht, Option.map_some, reduceCtorEq] at hparent
      have hsindex := hp.2.index_of_none hs
      have htindex := hq.2.index_of_none ht
      dsimp only at hsindex htindex
      simp only [wordOffset, hs, ht, if_true]
      by_cases hij : i = j
      · have happart : s.index + 4 ≤ t.index ∨ t.index + 4 ≤ s.index :=
          Slot.index_apart (hs.trans ht.symm) hp.2 hq.2 fun heq => hne (by rw [hij, heq])
        subst hij
        omega
      · simp only [inodeAt]
        omega
  | some r =>
      rw [hs] at hparent
      cases ht : t.parent with
      | none => simp only [Option.map_some, ht, Option.map_none, reduceCtorEq] at hparent
      | some r' =>
          simp only [ht, Option.map_some, Option.some.injEq, Prod.mk.injEq] at hparent
          have happart : s.index + 4 ≤ t.index ∨ t.index + 4 ≤ s.index :=
            Slot.index_apart (hs.trans (hparent.2 ▸ ht.symm)) hp.2 hq.2
              fun heq => hne (by rw [hparent.1, heq])
          simp only [wordOffset, hs, ht, reduceCtorEq, if_false]
          omega

theorem words_root_mem (g : Geometry) (p : Nat × Slot) (hp : p.1 < g.ninodes ∧ p.2.Valid)
    (hparent : (p.2.parent.map fun s => (p.1, s)) = none) :
    ∀ d < 4, 0 + wordOffset p + d ∈ {a | ∃ i < g.ninodes, a ∈ wordBytes i} := by
  intro d hd
  obtain ⟨i, s⟩ := p
  have hs : s.parent = none := by
    cases hs : s.parent with
    | none => rfl
    | some r => simp only [hs, Option.map_some, reduceCtorEq] at hparent
  have hindex := hp.2.index_of_none hs
  refine ⟨i, hp.1, ?_⟩
  simp only [wordOffset, hs, if_true, wordBytes, Set.mem_Ico]
  dsimp only at hindex
  omega

theorem words_bytes_mem (g : Geometry) (p q : Nat × Slot) (b : Nat)
    (hp : p.1 < g.ninodes ∧ p.2.Valid) (hparent : (p.2.parent.map fun s => (p.1, s)) = some q)
    (hdata : g.IsData b) : ∀ d < 4, ospfsBlock b + wordOffset p + d ∈ blockBytes b := by
  intro d hd
  obtain ⟨i, s⟩ := p
  cases hs : s.parent with
  | none => simp only [hs, Option.map_none, reduceCtorEq] at hparent
  | some r =>
      have hindex := hp.2.index_of_some hs
      dsimp only at hindex
      rw [hdata.block]
      simp only [wordOffset, hs, reduceCtorEq, if_false, blockBytes, Set.mem_Ico]
      omega

theorem words_root_apart (g : Geometry) (b a : Nat) (hdata : g.IsData b)
    (ha : a ∈ {a | ∃ i < g.ninodes, a ∈ wordBytes i}) : a ∉ blockBytes b := by
  obtain ⟨i, hi, hmem⟩ := ha
  exact not_mem_blockBytes_of_inode hdata hi (wordBytes_subset i hmem)

def diskTree (g : Geometry) : PointerTree (Nat × Slot) where
  parent p := p.2.parent.map fun s => (p.1, s)
  index p := (if p.2.parent = none then inodeAt p.1 else 0) + p.2.index
  depth p := p.2.depth
  Valid p := p.1 < g.ninodes ∧ p.2.Valid
  Data := g.IsData
  root := 0
  rootBytes := {a | ∃ i < g.ninodes, a ∈ wordBytes i}
  start := ospfsBlock
  bytes := blockBytes
  target m p := p.2.target m (inodeAt p.1)
  target_eq m p := by
    obtain ⟨i, s⟩ := p
    cases s with
    | direct k =>
        simp only [Slot.target, oiDirect, Nat.add_assoc, Slot.parent, Option.map_none,
          ↓reduceIte, Slot.index, zero_add]
    | indirect | indirect2 =>
        simp only [Slot.target, oiIndirect, oiIndirect2, Slot.parent, Option.map_none,
          ↓reduceIte, Slot.index, zero_add]
    | single k | outer l | double l k =>
        simp only [Slot.target, Slot.parent, Option.map_some, reduceCtorEq, ↓reduceIte,
          Slot.index, zero_add]
  depth_lt := words_depth_lt
  index_apart := words_apart g
  root_mem := words_root_mem g
  bytes_mem := words_bytes_mem g
  root_apart := words_root_apart g
  bytes_apart := blocks_apart g

theorem diskTree_parent (g : Geometry) (i : Nat) (s : Slot) :
    (diskTree g).parent (i, s) = s.parent.map fun t => (i, t) := rfl

theorem diskTree_target (g : Geometry) (m : Memory) (p : Nat × Slot) :
    (diskTree g).target m p = p.2.target m (inodeAt p.1) := rfl

theorem cell_eq_slot (g : Geometry) (m : Memory) (i : Nat) (s : Slot) :
    (diskTree g).cell m (i, s) = s.address m (inodeAt i) := by
  cases s <;> simp [PointerTree.cell, diskTree, Slot.address, Slot.parent, Slot.index]

theorem isMeta_of_diskTree (hparent : (diskTree g).parent p = some q) :
    q.2.IsMeta ∧ q.1 = p.1 := by
  obtain ⟨i, s⟩ := p
  rw [diskTree_parent, Option.map_eq_some_iff] at hparent
  obtain ⟨t, ht, rfl⟩ := hparent
  exact ⟨Slot.isMeta_of_parent ht, rfl⟩

/-- A word is in its inode or in a block of pointers of the same file. -/
theorem word_cases (h : (diskTree g).Spans m U) (hp : (diskTree g).InPlace U p)
    (ha : a ∈ (diskTree g).word m p) :
    a ∈ wordBytes p.1 ∨
      ∃ q, q.1 = p.1 ∧ U q ∧ q.2.IsMeta ∧ a ∈ blockBytes ((diskTree g).target m q) := by
  obtain ⟨i, s⟩ := p
  cases hs : s.parent with
  | none =>
      left
      have hcell : (diskTree g).cell m (i, s) = 0 + (inodeAt i + s.index) := by
        rw [PointerTree.cell_of_none (by rw [diskTree_parent, hs]; rfl)]
        simp [diskTree, hs]
      have hindex : 16 ≤ s.index ∧ s.index + 4 ≤ 64 := hp.1.2.index_of_none hs
      obtain ⟨hlo, hhi⟩ := Set.mem_Ico.1 ha
      rw [hcell] at hlo hhi
      simp only [wordBytes, Set.mem_Ico]
      omega
  | some t =>
      right
      have hparent : (diskTree g).parent (i, s) = some (i, t) := by
        rw [diskTree_parent, hs]
        rfl
      rcases h.mem_word hp ha with ⟨hnone, -⟩ | ⟨q, hq, hU, hmem⟩
      · rw [hparent] at hnone
        cases hnone
      · obtain ⟨hmeta, hsame⟩ := isMeta_of_diskTree hq
        exact ⟨q, hsame, hU, hmeta, hmem⟩

/-! ## Disks that are being filled -/

/-- The inode is not that of a symbolic link, so it has pointers. -/
def HasPointers (m : Memory) (i : Nat) : Prop := oiFtype m (inodeAt i) ≠ ftypeSymlink

/-- The places `U` are in use, and the blocks `P` are taken but have no pointer. -/
structure Laid (g : Geometry) (m : Memory) (U : Nat × Slot → Prop) (P : Set Nat)
    (nextb : Nat) : Prop where
  spans : (diskTree g).Spans m U
  first : g.firstData ≤ nextb
  last : nextb ≤ g.nblocks
  pending : ∀ b ∈ P, g.IsData b
  used : ∀ b, g.IsData b → (b < nextb ↔ b ∈ P ∨ ∃ p, U p ∧ (diskTree g).target m p = b)
  apart : ∀ p, U p → (diskTree g).target m p ∉ P
  tidy : ∀ p, (diskTree g).InPlace U p → HasPointers m p.1 → ¬ U p →
    (diskTree g).target m p = 0

namespace Laid

theorem isData (h : Laid g m U P nextb) (hp : U p) : g.IsData ((diskTree g).target m p) :=
  h.spans.data p hp

theorem lt (h : Laid g m U P nextb) (hp : U p) : (diskTree g).target m p < nextb :=
  (h.used _ (h.isData hp)).2 (.inr ⟨p, hp, rfl⟩)

theorem pending_lt (h : Laid g m U P nextb) (hb : b ∈ P) : b < nextb :=
  (h.used b (h.pending b hb)).2 (.inl hb)

theorem fresh (h : Laid g m U P nextb) (hlast : nextb < g.nblocks) : g.IsData nextb :=
  ⟨h.first, hlast⟩

theorem congr {U' : Nat × Slot → Prop} (h : Laid g m U P nextb) (heq : ∀ p, U p ↔ U' p) :
    Laid g m U' P nextb := by
  rwa [funext fun p => propext (heq p)] at h

/-- The pointers stay when the change is beside them. -/
theorem frame (h : Laid g m U P nextb) (hchanges : ChangesOnly S m m')
    (hpointers : ∀ i < g.ninodes, HasPointers m' i → HasPointers m i)
    (hout : ∀ p, (diskTree g).InPlace U p → U p ∨ HasPointers m' p.1 →
      ∀ a ∈ S, a ∉ (diskTree g).word m p) : Laid g m' U P nextb := by
  have houtU : ∀ p, U p → ∀ a ∈ S, a ∉ (diskTree g).word m p := fun p hp =>
    hout p (h.spans.inPlace p hp) (.inl hp)
  have hsame : ∀ p, U p → (diskTree g).target m' p = (diskTree g).target m p := fun p hp =>
    h.spans.target_eq hchanges houtU hp
  refine ⟨h.spans.frame hchanges houtU, h.first, h.last, h.pending, fun b hb => ?_,
    fun p hp => ?_, fun p hp hlink hnot => ?_⟩
  · rw [h.used b hb]
    refine or_congr Iff.rfl (exists_congr fun p => and_congr_right fun hp => ?_)
    rw [hsame p hp]
  · rw [hsame p hp]
    exact h.apart p hp
  · rw [h.spans.target_eq_of_inPlace hchanges houtU hp (hout p hp (.inr hlink))]
    exact h.tidy p hp (hpointers p.1 hp.1.1 hlink) hnot

/-- A block that is not in the tree. -/
theorem word_block (h : Laid g m U P nextb) (hp : (diskTree g).InPlace U p) (hb : g.IsData b)
    (hother : ∀ q, U q → q.2.IsMeta → (diskTree g).target m q ≠ b)
    (ha : a ∈ (diskTree g).word m p) : a ∉ blockBytes b := by
  rcases word_cases h.spans hp ha with hroot | ⟨q, -, hq, hmeta, hmem⟩
  · exact not_mem_blockBytes_of_inode hb hp.1.1 (wordBytes_subset _ hroot)
  · exact not_mem_blockBytes_of_ne (hother q hq hmeta) hmem

/-- The first bytes of an inode are not pointers. -/
theorem word_field (h : Laid g m U P nextb) (hp : (diskTree g).InPlace U p)
    (hi : i < g.ninodes) (ha : a ∈ Set.Ico (inodeAt i) (inodeAt i + 16)) :
    a ∉ (diskTree g).word m p := by
  intro hmem
  have hinode : a ∈ inodeBytes i := by
    simp only [inodeBytes, Set.mem_Ico] at *
    omega
  rcases word_cases h.spans hp hmem with hroot | ⟨q, -, hq, -, hblock⟩
  · obtain rfl := mem_inodeBytes_unique hinode (wordBytes_subset _ hroot)
    simp only [wordBytes, Set.mem_Ico] at *
    omega
  · exact not_mem_blockBytes_of_inode (h.isData hq) hi hinode hblock

/-- The bytes of a block that has no pointer may change. -/
theorem writeBlock (h : Laid g m U P nextb) (hb : g.IsData b)
    (hfree : ∀ p, U p → p.2.IsMeta → (diskTree g).target m p ≠ b)
    (hchanges : ChangesOnly (blockBytes b) m m') : Laid g m' U P nextb := by
  have hsame : ∀ i < g.ninodes, oiFtype m' (inodeAt i) = oiFtype m (inodeAt i) :=
    fun i hi => hchanges.load32 fun d hd hmem =>
      not_mem_blockBytes_of_inode hb hi (by simp only [inodeBytes, Set.mem_Ico]; omega) hmem
  refine h.frame hchanges (fun i hi => ?_) fun p hp _ a ha hmem =>
    h.word_block hp hb hfree hmem ha
  rw [HasPointers, hsame i hi]
  exact id

theorem writeBlock_target (h : Laid g m U P nextb) (hb : g.IsData b)
    (hfree : ∀ p, U p → p.2.IsMeta → (diskTree g).target m p ≠ b)
    (hchanges : ChangesOnly (blockBytes b) m m') (hp : U p) :
    (diskTree g).target m' p = (diskTree g).target m p :=
  h.spans.target_eq hchanges
    (fun q hq _ ha hmem => h.word_block (h.spans.inPlace q hq) hb hfree hmem ha) hp

theorem ne_pending (h : Laid g m U P nextb) (hb : b ∈ P) (hp : U p) :
    (diskTree g).target m p ≠ b := fun heq => h.apart p hp (heq ▸ hb)

theorem ne_fresh (h : Laid g m U P nextb) (hle : nextb ≤ b) (hp : U p) :
    (diskTree g).target m p ≠ b := ((h.lt hp).trans_le hle).ne

/-- The next block is taken. -/
theorem take (h : Laid g m U P nextb) (hlast : nextb < g.nblocks) :
    Laid g (eraseBlock m nextb) U (insert nextb P) (nextb + 1) := by
  have hdata := h.fresh hlast
  have hblock := h.writeBlock hdata (fun p hp _ => h.ne_fresh le_rfl hp)
    (eraseBlock_changesOnly hdata)
  refine ⟨hblock.spans, h.first.trans (Nat.le_succ _), hlast, ?_, fun b hb => ?_, fun p hp => ?_,
    hblock.tidy⟩
  · rintro b (rfl | hb)
    · exact hdata
    · exact h.pending b hb
  · rw [Nat.lt_succ_iff_lt_or_eq, hblock.used b hb, Set.mem_insert_iff, or_comm,
      or_assoc]
  · rw [Set.mem_insert_iff, not_or]
    exact ⟨hblock.ne_fresh le_rfl hp, hblock.apart p hp⟩

/-- A block that was taken gets its pointer. -/
theorem link (h : Laid g m U P nextb) (hp : (diskTree g).InPlace U p) (hnew : ¬ U p)
    (hb : b ∈ P) (hzero : p.2.IsMeta → ∀ a ∈ blockBytes b, m a = 0) :
    Laid g (store32 m ((diskTree g).cell m p) b) (fun q => U q ∨ q = p) (P \ {b}) nextb ∧
      (diskTree g).target (store32 m ((diskTree g).cell m p) b) p = b ∧
      ∀ q, U q → (diskTree g).target (store32 m ((diskTree g).cell m p) b) q =
        (diskTree g).target m q := by
  have hdata := h.pending b hb
  have hchanges : ChangesOnly ((diskTree g).word m p) m
      (store32 m ((diskTree g).cell m p) b) := store32_changesOnly m _ b
  have hout : ∀ q, (diskTree g).InPlace U q → q ≠ p →
      ∀ a ∈ (diskTree g).word m p, a ∉ (diskTree g).word m q := fun q hq hne a ha =>
    h.spans.word_apart hp hq (Ne.symm hne) ha
  have houtU : ∀ q, U q → ∀ a ∈ (diskTree g).word m p, a ∉ (diskTree g).word m q :=
    fun q hq => hout q (h.spans.inPlace q hq) fun heq => hnew (heq ▸ hq)
  have hsame : ∀ q, U q → (diskTree g).target (store32 m ((diskTree g).cell m p) b) q =
      (diskTree g).target m q := fun q hq => h.spans.target_eq hchanges houtU hq
  have htarget : (diskTree g).target (store32 m ((diskTree g).cell m p) b) p = b := by
    rw [← PointerTree.load32_cell, h.spans.cell_eq hchanges houtU hp, load32_store32_same]
    exact Nat.mod_eq_of_lt (hdata.lt.trans (by decide))
  have hftype : ∀ i < g.ninodes,
      oiFtype (store32 m ((diskTree g).cell m p) b) (inodeAt i) = oiFtype m (inodeAt i) :=
    fun i hi => hchanges.load32 fun d hd hmem =>
      h.word_field hp hi (Set.mem_Ico.2 ⟨by omega, by omega⟩) hmem
  have hspans := h.spans.frame hchanges houtU
  refine ⟨⟨hspans.attach hp ?_ ?_, h.first, h.last, fun c hc => h.pending c hc.1, fun c hc => ?_,
    ?_, ?_⟩, htarget, hsame⟩
  · rw [htarget]
    exact hdata
  · intro q hq
    rw [hsame q hq, htarget]
    exact h.ne_pending hb hq
  · rw [h.used c hc]
    constructor
    · rintro (hpending | ⟨q, hq, rfl⟩)
      · by_cases hcb : c = b
        · exact .inr ⟨p, .inr rfl, htarget.trans hcb.symm⟩
        · exact .inl ⟨hpending, hcb⟩
      · exact .inr ⟨q, .inl hq, hsame q hq⟩
    · rintro (hpending | ⟨q, hq | rfl, htarget'⟩)
      · exact .inl hpending.1
      · exact .inr ⟨q, hq, (hsame q hq).symm.trans htarget'⟩
      · exact .inl (htarget.symm.trans htarget' ▸ hb)
  · rintro q (hq | rfl)
    · rw [hsame q hq]
      exact fun hmem => h.apart q hq hmem.1
    · rw [htarget]
      exact fun hmem => hmem.2 rfl
  · intro q hq hlink hnot
    rw [not_or] at hnot
    rw [HasPointers, hftype q.1 hq.1.1] at hlink
    by_cases hbelow : (diskTree g).parent q = some p
    · obtain ⟨hmeta, -⟩ := isMeta_of_diskTree hbelow
      rw [← PointerTree.load32_cell, PointerTree.cell_of_some hbelow, htarget]
      refine load32_eq_zero fun d hd => ?_
      have hmem := (diskTree g).bytes_mem q p b hq.1 hbelow hdata d hd
      rw [hchanges _ fun hword => h.word_block hp hdata (fun r hr _ => h.ne_pending hb hr)
        hword hmem]
      exact hzero hmeta _ hmem
    · have hplace : (diskTree g).InPlace U q := by
        refine ⟨hq.1, fun r hparent => (hq.2 r hparent).resolve_right ?_⟩
        rintro rfl
        exact hbelow hparent
      rw [h.spans.target_eq_of_inPlace hchanges houtU hplace (hout q hplace hnot.2)]
      exact h.tidy q hplace hlink hnot.1

end Laid

end Cs111Labs.Ospfsformat
