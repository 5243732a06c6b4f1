import Cs111Labs.Foundation.PointerTree
import Cs111Labs.Ospfs.IndirectFiles

/-!
# The pointers of a file as a tree

The block numbers of a file in its inode, its indirect blocks and its doubly
indirect block.  Growing takes places into the tree, and shrinking takes places
out of it.
-/

namespace Cs111Labs.Ospfs

open Foundation Memory

variable {lossless : Prop} {g : Geometry} {m m' m₀ : Memory} {own : Nat → Prop}
  {a b c i n : Nat} {S : Set Nat} {U : Slot → Prop}

namespace Slot

/-- The slot that points to the block of this one. -/
def parent : Slot → Option Slot
  | direct _ | indirect | indirect2 => none
  | single _ => some indirect
  | outer _ => some indirect2
  | double l _ => some (outer l)

/-- The offset of the word in the inode or in its block. -/
def index : Slot → Nat
  | direct k => 16 + 4 * k
  | indirect => 56
  | indirect2 => 60
  | single k | outer k | double _ k => 4 * k

def depth : Slot → Nat
  | direct _ | indirect | indirect2 => 0
  | single _ | outer _ => 1
  | double _ _ => 2

/-- The slot is in its array. -/
def Valid : Slot → Prop
  | direct k => k < 10
  | indirect | indirect2 => True
  | single k | outer k => k < 256
  | double l k => l < 256 ∧ k < 256

theorem isMeta_of_parent {s p : Slot} (h : s.parent = some p) : p.IsMeta := by
  cases s <;> simp only [parent, Option.some.injEq, reduceCtorEq] at h <;> subst h <;>
    exact trivial

theorem InUse.valid {s : Slot} (h : s.InUse n) : s.Valid := by
  cases s with
  | direct k => exact h.1
  | indirect | indirect2 => exact trivial
  | single k => exact h.1
  | outer l => exact h.1
  | double l k => exact ⟨h.1, h.2.1⟩

theorem InUse.parent {s p : Slot} (h : s.InUse n) (hparent : s.parent = some p) :
    p.InUse n := by
  cases s with
  | direct k | indirect | indirect2 => cases hparent
  | single k =>
      cases hparent
      exact Nat.lt_of_le_of_lt (Nat.le_add_right 10 k) h.2
  | outer l =>
      cases hparent
      exact Nat.lt_of_le_of_lt (Nat.le_add_right (10 + 256) _) h.2
  | double l k =>
      cases hparent
      exact ⟨h.1, Nat.lt_of_le_of_lt (Nat.le_add_right _ k) h.2.2⟩

theorem index_apart {s t : Slot} (hparent : s.parent = t.parent)
    (hs : s.Valid) (ht : t.Valid) (hne : s ≠ t) :
    s.index + 4 ≤ t.index ∨ t.index + 4 ≤ s.index := by
  cases s <;> cases t <;> simp only [Slot.parent, Option.some.injEq, reduceCtorEq] at hparent <;>
    simp only [Slot.index, Slot.Valid, ne_eq, direct.injEq, single.injEq, outer.injEq,
      double.injEq, not_true_eq_false] at * <;> omega

theorem Valid.index_of_none {s : Slot} (hs : s.Valid) (hparent : s.parent = none) :
    16 ≤ s.index ∧ s.index + 4 ≤ 64 := by
  cases s with
  | direct k =>
      simp only [Valid, index] at *
      omega
  | indirect | indirect2 => exact ⟨by decide, by decide⟩
  | single k | outer k | double l k => cases hparent

theorem Valid.index_of_some {s p : Slot} (hs : s.Valid) (hparent : s.parent = some p) :
    s.index + 4 ≤ 1024 := by
  cases s with
  | direct k | indirect | indirect2 => cases hparent
  | single k | outer k | double l k =>
      simp only [Valid, index] at *
      omega

/-- The address of the word of a slot. -/
def address (m : Memory) (oi : Nat) (s : Slot) : Nat :=
  (match s.parent with | none => oi | some p => ospfsBlock (p.target m oi)) + s.index

end Slot

/-- The block numbers of a file. -/
def fileTree (g : Geometry) (i : Nat) (hi : i < g.ninodes) : PointerTree Slot where
  parent := Slot.parent
  index := Slot.index
  depth := Slot.depth
  Valid := Slot.Valid
  Data := g.IsData
  root := inodeAt i
  rootBytes := pointerBytes i
  start := ospfsBlock
  bytes := blockBytes
  target m s := s.target m (inodeAt i)
  target_eq m s := by
    cases s with
    | direct k =>
        simp only [Slot.target, oiDirect, Slot.parent, Slot.index, Nat.add_assoc]
    | indirect | single k | indirect2 | outer l | double l k => rfl
  depth_lt s p hparent := by cases s <;> cases hparent <;> exact Nat.lt_succ_self _
  index_apart s t hs ht hparent := Slot.index_apart hparent hs ht
  root_mem s hs hparent d hd := by
    have hindex := hs.index_of_none hparent
    simp only [pointerBytes, Set.mem_ofPred_eq]
    omega
  bytes_mem s p b hs hparent hdata d hd := by
    have hindex := hs.index_of_some hparent
    rw [hdata.block]
    simp only [blockBytes, Set.mem_Ico]
    omega
  root_apart b a hdata ha := not_mem_blockBytes_of_inode hdata hi (pointerBytes_subset i ha)
  bytes_apart b c a _ _ hne ha := not_mem_blockBytes_of_ne hne ha

variable {hi : i < g.ninodes}

theorem cell_eq_address (hi : i < g.ninodes) (m : Memory) (s : Slot) :
    (fileTree g i hi).cell m s = s.address m (inodeAt i) := by
  cases s <;> rfl

/-! ## One pointer more or less -/

/-- A new block is put below the word at `a`. -/
def link (m : Memory) (a b : Nat) : Memory :=
  eraseBlock (store32 (bitvectorClear m freemap b) a b) b

/-- The block below the word at `a` is given back. -/
def unlink (m : Memory) (a : Nat) : Memory := store32 (freeBlock m (load32 m a)) a 0

theorem link_changesOnly (hb : g.IsData b) (m : Memory) (a : Nat) :
    ChangesOnly (blockBytes 2 ∪ Set.Ico a (a + 4) ∪ blockBytes b) m (link m a b) := by
  have hlast := hb.2
  have hblocks := g.nblocks_le
  refine (((bitvectorClear_changesOnly (by omega)).mono ?_).trans
    ((store32_changesOnly _ a b).mono ?_)).trans ((eraseBlock_changesOnly hb).mono ?_)
  · exact fun x hx => .inl (.inl hx)
  · exact fun x hx => .inl (.inr hx)
  · exact fun x hx => .inr hx

theorem link_zero (hb : g.IsData b) {x : Nat} (hx : x ∈ blockBytes b) : link m a b x = 0 := by
  refine if_pos ?_
  rw [hb.block]
  exact Set.mem_Ico.1 hx

theorem load32_link (hb : g.IsData b) (ha : ∀ x ∈ Set.Ico a (a + 4), x ∉ blockBytes b) :
    load32 (link m a b) a = b := by
  refine ((eraseBlock_changesOnly hb).load32 fun d hd => ?_).trans
    ((load32_store32_same _ a b).trans (Nat.mod_eq_of_lt ?_))
  · exact ha _ (Set.mem_Ico.2 ⟨by omega, by omega⟩)
  · exact hb.lt.trans (by decide)

theorem bitvectorTest_link (hb : g.IsData b)
    (ha : ∀ x ∈ Set.Ico a (a + 4), x ∉ blockBytes 2) (hc : c < 8192) :
    bitvectorTest (link m a b) freemap c =
      (bitvectorTest m freemap c && decide (c ≠ b)) := by
  have hthree := hb.three_lt
  rw [← bitvectorTest_clear]
  refine (bitvectorTest_changesOnly (eraseBlock_changesOnly hb) (fun x hx => ?_) hc).trans
    (bitvectorTest_changesOnly (store32_changesOnly _ a b) ha hc)
  exact not_mem_blockBytes_of_ne (by omega) hx

theorem unlink_changesOnly (hfits : g.Fits m) (hb : g.IsData (load32 m a)) :
    ChangesOnly (blockBytes 2 ∪ Set.Ico a (a + 4)) m (unlink m a) := by
  refine ((freeBlock_changesOnly hfits (.inr hb)).mono ?_).trans
    ((store32_changesOnly _ a 0).mono ?_)
  · exact fun x hx => .inl hx
  · exact fun x hx => .inr hx

theorem load32_unlink (m : Memory) (a : Nat) : load32 (unlink m a) a = 0 :=
  load32_store32_same _ a 0

theorem bitvectorTest_unlink (hfits : g.Fits m) (hb : g.IsData (load32 m a))
    (ha : ∀ x ∈ Set.Ico a (a + 4), x ∉ blockBytes 2) (hc : c < 8192) :
    bitvectorTest (unlink m a) freemap c =
      (bitvectorTest m freemap c || decide (c = load32 m a)) := by
  refine (bitvectorTest_changesOnly (store32_changesOnly _ a 0) ha hc).trans ?_
  rw [freeBlock_of_isData hfits hb, bitvectorTest_set]

/-- A free block that is linked and given back is only erased. -/
theorem unlink_link (hfits : g.Fits (link m a b)) (hb : g.IsData b)
    (hfree : bitvectorTest m freemap b = true) (hzero : load32 m a = 0)
    (hbitmap : ∀ x ∈ Set.Ico a (a + 4), x ∉ blockBytes 2)
    (hblock : ∀ x ∈ Set.Ico a (a + 4), x ∉ blockBytes b) :
    unlink (link m a b) a = fill m (1024 * b) 1024 0 := by
  have hload : load32 (link m a b) a = b := load32_link hb hblock
  have hthree := hb.three_lt
  have hdata : g.IsData (load32 (link m a b) a) := by rwa [hload]
  funext x
  by_cases hx : x ∈ blockBytes b
  · have hnot : x ∉ blockBytes 2 ∪ Set.Ico a (a + 4) := by
      rintro (hmem | hmem)
      · exact not_mem_blockBytes_of_ne (by omega) hx hmem
      · exact hblock x hmem hx
    rw [unlink_changesOnly hfits hdata x hnot, link_zero hb hx]
    exact (if_pos (Set.mem_Ico.1 hx)).symm
  · rw [fill_changesOnly m (1024 * b) 1024 0 x hx]
    by_cases hmap : x ∈ blockBytes 2
    · refine bitmap_eq (fun c hc => ?_) hmap
      rw [bitvectorTest_unlink hfits hdata hbitmap hc, hload, bitvectorTest_link hb hbitmap hc]
      by_cases hcb : c = b
      · simp [hcb, hfree]
      · simp [hcb]
    · by_cases hword : x ∈ Set.Ico a (a + 4)
      · obtain ⟨hlo, hhi⟩ := Set.mem_Ico.1 hword
        have hbyte := eq_of_load32_eq ((load32_unlink (link m a b) a).trans hzero.symm)
          (k := x - a) (by omega)
        rwa [show a + (x - a) = x by omega] at hbyte
      · refine (unlink_changesOnly hfits hdata x ?_).trans (link_changesOnly hb m a x ?_)
        · rintro (hmem | hmem)
          · exact hmap hmem
          · exact hword hmem
        · rintro ((hmem | hmem) | hmem)
          · exact hmap hmem
          · exact hword hmem
          · exact hx hmem

/-! ## Words of the tree -/

namespace FileTree

variable {s t : Slot}

theorem le_of_word (h : (fileTree g i hi).Spans m U) (hs : (fileTree g i hi).InPlace U s)
    (ha : a ∈ (fileTree g i hi).word m s) : 3072 ≤ a := by
  rcases h.mem_word hs ha with ⟨-, hroot⟩ | ⟨p, -, hp, hmem⟩
  · have hlow := (Set.mem_Ico.1 (pointerBytes_subset i hroot)).1
    exact (Nat.le_add_right 3072 _).trans hlow
  · have hthree := (h.data p hp).three_lt
    have hlow := (Set.mem_Ico.1 hmem).1
    exact (Nat.mul_le_mul_left 1024 hthree).trans hlow

theorem word_bitmap (h : (fileTree g i hi).Spans m U) (hs : (fileTree g i hi).InPlace U s)
    (ha : a ∈ (fileTree g i hi).word m s) : a ∉ blockBytes 2 := fun hbitmap => by
  have hlow := le_of_word h hs ha
  have hhigh := (Set.mem_Ico.1 hbitmap).2
  omega

theorem word_block (h : (fileTree g i hi).Spans m U) (hs : (fileTree g i hi).InPlace U s)
    (hb : g.IsData b) (hother : ∀ p, s.parent = some p → p.target m (inodeAt i) ≠ b)
    (ha : a ∈ (fileTree g i hi).word m s) : a ∉ blockBytes b := by
  rcases h.mem_word hs ha with ⟨-, hroot⟩ | ⟨p, hparent, -, hmem⟩
  · exact not_mem_blockBytes_of_inode hb hi (pointerBytes_subset i hroot)
  · exact not_mem_blockBytes_of_ne (hother p hparent) hmem

theorem word_field (h : (fileTree g i hi).Spans m U) (hs : (fileTree g i hi).InPlace U s)
    (ha : a ∈ (fileTree g i hi).word m s) : a ∉ Set.Ico (inodeAt i) (inodeAt i + 16) := by
  have hlow := Set.mem_Ico.1 ha
  intro hfield
  have hhigh := (Set.mem_Ico.1 hfield).2
  cases hparent : s.parent with
  | none =>
      have hindex := hs.1.index_of_none hparent
      have hcell : (fileTree g i hi).cell m s = inodeAt i + s.index :=
        PointerTree.cell_of_none hparent
      omega
  | some p =>
      have hdata : g.IsData (p.target m (inodeAt i)) := h.data p (hs.2 p hparent)
      have hfirst := inode_le_of_isData hdata hi
      have hcell : (fileTree g i hi).cell m s =
          ospfsBlock (p.target m (inodeAt i)) + s.index := PointerTree.cell_of_some hparent
      rw [hdata.block] at hcell
      omega

end FileTree

end Cs111Labs.Ospfs
