import Cs111Labs.Ospfs.AddBlock
import Cs111Labs.Ospfsformat.DiskTree
import Cs111Labs.Ospfsformat.Writer

/-!
# Storing a block number

`storeblk` takes the missing slots on the way to a block into the tree.
-/

namespace Cs111Labs.Ospfsformat

open Foundation Memory Ospfs

variable {o : Opened} {g : Geometry} {m m' m'' : Memory} {U U' U'' : Nat × Slot → Prop}
  {P S : Set Nat} {nextb nextb' nextb'' a b i j k n : Nat} {p q : Nat × Slot} {s s' : Writer}

/-! ## Changes of the pointers of one file -/

/-- The pointers of a file, and the blocks from `nextb` on. -/
def pointerRegion (g : Geometry) (i : Nat) (m : Memory) (U : Nat × Slot → Prop) (nextb : Nat) :
    Set Nat :=
  wordBytes i ∪
    {a | ∃ p, p.1 = i ∧ p.2.IsMeta ∧ U p ∧ a ∈ blockBytes ((diskTree g).target m p)} ∪
    {a | ∃ b, nextb ≤ b ∧ g.IsData b ∧ a ∈ blockBytes b}

/-- A file gets places; those of pointers have new blocks. -/
structure Points (g : Geometry) (i : Nat) (m : Memory) (U : Nat × Slot → Prop) (nextb : Nat)
    (m' : Memory) (U' : Nat × Slot → Prop) (nextb' : Nat) : Prop where
  changes : ChangesOnly (pointerRegion g i m U nextb) m m'
  le : nextb ≤ nextb'
  kept : ∀ p, U p → U' p ∧ (diskTree g).target m' p = (diskTree g).target m p
  new : ∀ p, U' p → ¬ U p → p.1 = i ∧ (p.2.IsMeta →
    nextb ≤ (diskTree g).target m' p ∧ g.IsData ((diskTree g).target m' p))

namespace Points

theorem refl (g : Geometry) (i : Nat) (m : Memory) (U : Nat × Slot → Prop) (nextb : Nat) :
    Points g i m U nextb m U nextb where
  changes := .refl m
  le := le_rfl
  kept _ hp := ⟨hp, rfl⟩
  new _ hp hnot := absurd hp hnot

theorem trans (h : Points g i m U nextb m' U' nextb') (hn : nextb ≤ n)
    (h' : Points g i m' U' n m'' U'' nextb'') : Points g i m U nextb m'' U'' nextb'' where
  changes := by
    refine h.changes.trans (h'.changes.mono ?_)
    rintro a ((ha | ⟨p, hp, hmeta, hU, ha⟩) | ⟨b, hle, hb, ha⟩)
    · exact .inl (.inl ha)
    · by_cases hold : U p
      · rw [(h.kept p hold).2] at ha
        exact .inl (.inr ⟨p, hp, hmeta, hold, ha⟩)
      · obtain ⟨hle, hdata⟩ := (h.new p hU hold).2 hmeta
        exact .inr ⟨_, hle, hdata, ha⟩
    · exact .inr ⟨b, hn.trans hle, hb, ha⟩
  le := hn.trans h'.le
  kept p hp := by
    obtain ⟨hU, htarget⟩ := h.kept p hp
    obtain ⟨hU', htarget'⟩ := h'.kept p hU
    exact ⟨hU', htarget'.trans htarget⟩
  new p hp hnot := by
    by_cases hold : U' p
    · rw [(h'.kept p hold).2]
      exact h.new p hold hnot
    · obtain ⟨hsame, hmeta⟩ := h'.new p hp hold
      exact ⟨hsame, fun hm => ⟨hn.trans (hmeta hm).1, (hmeta hm).2⟩⟩

/-- Only the words of one inode change. -/
theorem inode (h : Points g i m U nextb m' U' nextb') (hlaid : Laid g m U P nextb)
    (hj : j < g.ninodes) (ha : a ∈ inodeBytes j) (hfield : j = i → a < inodeAt j + 16) :
    m' a = m a := by
  refine h.changes a ?_
  rintro ((hword | ⟨p, -, -, hU, hblock⟩) | ⟨b, -, hb, hblock⟩)
  · obtain rfl := mem_inodeBytes_unique ha (wordBytes_subset i hword)
    have hlow := (Set.mem_Ico.1 hword).1
    have hhigh := hfield rfl
    omega
  · exact not_mem_blockBytes_of_inode (hlaid.isData hU) hj ha hblock
  · exact not_mem_blockBytes_of_inode hb hj ha hblock

theorem field (h : Points g i m U nextb m' U' nextb') (hlaid : Laid g m U P nextb)
    (hj : j < g.ninodes) (hn : n ≤ 12) :
    load32 m' (inodeAt j + n) = load32 m (inodeAt j + n) :=
  load32_congr fun d hd => h.inode hlaid hj (by
    simp only [inodeBytes, Set.mem_Ico]
    omega) fun _ => by omega

/-- The bytes of files and those of blocks without a pointer stay. -/
theorem block (h : Points g i m U nextb m' U' nextb') (hi : i < g.ninodes) (hb : g.IsData b)
    (hlt : b < nextb)
    (hout : ∀ p, p.1 = i → p.2.IsMeta → U p → (diskTree g).target m p ≠ b)
    (ha : a ∈ blockBytes b) : m' a = m a := by
  refine h.changes a ?_
  rintro ((hword | ⟨p, hp, hmeta, hU, hblock⟩) | ⟨c, hle, -, hblock⟩)
  · exact not_mem_blockBytes_of_inode hb hi (wordBytes_subset i hword) ha
  · exact not_mem_blockBytes_of_ne (hout p hp hmeta hU).symm ha hblock
  · exact not_mem_blockBytes_of_ne (by omega) ha hblock

end Points

theorem Laid.link_points (h : Laid g m U P nextb) (hp : (diskTree g).InPlace U p)
    (hnew : ¬ U p) (hb : b ∈ P) (hzero : p.2.IsMeta → ∀ a ∈ blockBytes b, m a = 0) {n : Nat}
    (hn : n ≤ nextb) (hmeta : p.2.IsMeta → n ≤ b) :
    Points g p.1 m U n (store32 m ((diskTree g).cell m p) b) (fun q => U q ∨ q = p) nextb := by
  obtain ⟨-, htarget, hsame⟩ := h.link hp hnew hb hzero
  refine ⟨(store32_changesOnly m _ b).mono fun a ha => .inl ?_, hn,
    fun q hq => ⟨.inl hq, hsame q hq⟩, ?_⟩
  · rcases word_cases h.spans hp ha with hroot | ⟨q, hq, hU, hm, hmem⟩
    · exact .inl hroot
    · exact .inr ⟨q, hq, hm, hU, hmem⟩
  · rintro q (hq | rfl) hnot
    · exact absurd hq hnot
    · refine ⟨rfl, fun hm => ?_⟩
      rw [htarget]
      exact ⟨hmeta hm, h.pending b hb⟩

theorem Laid.take_points (h : Laid g m U P nextb) (hlast : nextb < g.nblocks) (i : Nat) :
    Points g i m U nextb (eraseBlock m nextb) U (nextb + 1) where
  changes := (eraseBlock_changesOnly (h.fresh hlast)).mono fun _ ha =>
    .inr ⟨nextb, le_rfl, h.fresh hlast, ha⟩
  le := Nat.le_succ nextb
  kept _ hp := ⟨hp, h.writeBlock_target (h.fresh hlast) (fun _ hq _ => h.ne_fresh le_rfl hq)
    (eraseBlock_changesOnly (h.fresh hlast)) hp⟩
  new _ hp hnot := absurd hp hnot

/-! ## The functions -/

theorem getblk_some {bno : Nat} {clr : Bool} (h : getblk o bno clr m = some m') :
    bno < o.nblocks ∧ m' = if clr then eraseBlock m bno else m := by
  unfold getblk at h
  split_ifs at h with hle hclr
  · exact ⟨not_le.1 hle, (Option.some.inj h).symm.trans (if_pos hclr).symm⟩
  · exact ⟨not_le.1 hle, (Option.some.inj h).symm.trans (if_neg hclr).symm⟩

theorem eraseBlock_zero (hb : g.IsData b) (ha : a ∈ blockBytes b) : eraseBlock m b a = 0 := by
  refine if_pos ?_
  rw [hb.block]
  exact Set.mem_Ico.1 ha

/-- A slot of pointers has a block afterwards. -/
theorem pointedBlock_points (ho : o.nblocks = g.nblocks) (h : Laid g s.disk U P s.nextb)
    (hp : (diskTree g).InPlace U p) (hlink : HasPointers s.disk p.1)
    (hs : pointedBlock o ((diskTree g).cell s.disk p) s = some s') :
    Laid g s'.disk (fun q => U q ∨ q = p) P s'.nextb ∧
      Points g p.1 s.disk U s.nextb s'.disk (fun q => U q ∨ q = p) s'.nextb ∧
      s'.nextinode = s.nextinode ∧ s'.hardlinks = s.hardlinks := by
  unfold pointedBlock at hs
  rw [PointerTree.load32_cell] at hs
  split_ifs at hs with hzero
  · have hnew : ¬ U p := fun hU => by
      have hthree := (h.isData hU).three_lt
      omega
    obtain ⟨disk, hget, rfl⟩ := Option.map_eq_some_iff.1 hs
    obtain ⟨hlt, rfl⟩ := getblk_some hget
    rw [ho] at hlt
    have htake := h.take hlt
    have hpoints := h.take_points hlt p.1
    have hcell : (diskTree g).cell (eraseBlock s.disk s.nextb) p = (diskTree g).cell s.disk p :=
      PointerTree.cell_congr fun q hq => (hpoints.kept q (hp.2 q hq)).2
    have hb : s.nextb ∈ insert s.nextb P := Set.mem_insert _ _
    have hclear : p.2.IsMeta → ∀ a ∈ blockBytes s.nextb, eraseBlock s.disk s.nextb a = 0 :=
      fun _ a ha => eraseBlock_zero (h.fresh hlt) ha
    have hlinked := (htake.link hp hnew hb hclear).1
    have hpending : s.nextb ∉ P := fun hmem => absurd (h.pending_lt hmem) (lt_irrefl _)
    rw [hcell, Set.insert_sdiff_self_of_notMem hpending] at hlinked
    have hlinkPoints := htake.link_points hp hnew hb hclear (Nat.le_succ _) fun _ => le_rfl
    rw [hcell] at hlinkPoints
    exact ⟨hlinked, hpoints.trans le_rfl hlinkPoints, rfl, rfl⟩
  · have hU : U p := by
      by_contra hnot
      exact hzero (h.tidy p hp hlink hnot)
    obtain ⟨disk, hget, rfl⟩ := Option.map_eq_some_iff.1 hs
    obtain ⟨-, rfl⟩ := getblk_some hget
    have hsame : ∀ q, U q ↔ U q ∨ q = p := fun q =>
      ⟨.inl, fun hq => hq.elim id fun heq => heq ▸ hU⟩
    refine ⟨h.congr hsame, ?_, rfl, rfl⟩
    have hrefl := Points.refl g p.1 s.disk U s.nextb
    rwa [← funext fun q => propext (hsame q)]

/-- The places of a file with `k` blocks and those on the way to the next one. -/
def withPath (U : Nat × Slot → Prop) (i k : Nat) : Nat × Slot → Prop := fun q =>
  U q ∨ q.1 = i ∧ q.2 ∈ Slot.path k

/-- The next block of a file gets its pointer. -/
structure NextBlock (g : Geometry) (U : Nat × Slot → Prop) (P : Set Nat) (i b k : Nat)
    (s s' : Writer) : Prop where
  lt : k < Slot.maxfileblks
  laid : Laid g s'.disk (withPath U i k) (P \ {b}) s'.nextb
  points : Points g i s.disk U s.nextb s'.disk (withPath U i k) s'.nextb
  target : (Slot.ofIndex k).target s'.disk (inodeAt i) = b
  nextinode : s'.nextinode = s.nextinode
  hardlinks : s'.hardlinks = s.hardlinks

theorem HasPointers.points (hlink : HasPointers m i) (h : Points g j m U nextb m' U' nextb')
    (hlaid : Laid g m U P nextb) (hi : i < g.ninodes) : HasPointers m' i := by
  rw [HasPointers, show oiFtype m' (inodeAt i) = _ from h.field hlaid hi (by decide)]
  exact hlink

/-- The last pointer on the way. -/
theorem NextBlock.of_link {s₁ : Writer} {t : Slot} (hk : k < Slot.maxfileblks)
    (h : Laid g s₁.disk U' P s₁.nextb)
    (hpoints : Points g i s.disk U s.nextb s₁.disk U' s₁.nextb)
    (hp : (diskTree g).InPlace U' (i, t)) (hnew : ¬ U' (i, t)) (hb : b ∈ P)
    (ht : Slot.ofIndex k = t) (hpath : ∀ q, U' q ∨ q = (i, t) ↔ withPath U i k q)
    (hnext : s₁.nextinode = s.nextinode) (hlinks : s₁.hardlinks = s.hardlinks) :
    NextBlock g U P i b k s { s₁ with disk := store32 s₁.disk (t.address s₁.disk (inodeAt i)) b } := by
  have hdata : ¬ t.IsMeta := ht ▸ Slot.ofIndex_not_isMeta k
  have hpath' := funext fun q => propext (hpath q)
  obtain ⟨hlaid, htarget, -⟩ := h.link hp hnew hb fun hmeta => absurd hmeta hdata
  have hlinkPoints := h.link_points hp hnew hb (fun hmeta => absurd hmeta hdata) le_rfl
    fun hmeta => absurd hmeta hdata
  rw [hpath', cell_eq_slot] at hlaid hlinkPoints
  rw [cell_eq_slot] at htarget
  exact ⟨hk, hlaid, hpoints.trans hpoints.le hlinkPoints, ht ▸ htarget, hnext, hlinks⟩

theorem storeblk_nextBlock (ho : o.nblocks = g.nblocks) (h : Laid g s.disk U P s.nextb)
    (hi : i < g.ninodes) (hU : ∀ t, U (i, t) ↔ t.InUse k) (hb : b ∈ P)
    (hlink : HasPointers s.disk i) (hs : storeblk o (inodeAt i) b k s = some s') :
    NextBlock g U P i b k s s' := by
  unfold storeblk at hs
  split_ifs at hs with hdirect hsingle hdouble
  · obtain rfl := Option.some.inj hs
    rw [setOiDirect, Nat.add_assoc]
    refine NextBlock.of_link (t := .direct k) (hdirect.trans (by decide)) h
      (.refl g i s.disk U s.nextb) ⟨⟨hi, hdirect⟩, fun q hq => ?_⟩ ?_ hb ?_ ?_ rfl rfl
    · cases hq
    · rw [hU]
      exact fun huse => absurd huse.2 (lt_irrefl k)
    · exact if_pos hdirect
    · intro q
      simp [withPath, Slot.path, hdirect, Prod.ext_iff]
  · obtain ⟨s₁, hind, hs⟩ := Option.bind_eq_some_iff.1 hs
    obtain rfl := Option.some.inj hs
    have hplace : (diskTree g).InPlace U (i, .indirect) := ⟨⟨hi, trivial⟩, fun q hq => by cases hq⟩
    have hcell : (diskTree g).cell s.disk (i, .indirect) = inodeAt i + 56 :=
      cell_eq_slot g s.disk i .indirect
    rw [← hcell] at hind
    obtain ⟨hlaid, hpoints, hnext, hlinks⟩ := pointedBlock_points ho h hplace hlink hind
    have hslot : Slot.ofIndex k = .single (k - 10) := by
      rw [Slot.ofIndex, if_neg hdirect, if_pos hsingle]
    refine NextBlock.of_link (t := .single (k - 10)) (hsingle.trans (by decide)) hlaid hpoints
      ⟨⟨hi, (by omega : k - 10 < 256)⟩, fun q hq => ?_⟩ ?_ hb hslot ?_ hnext hlinks
    · obtain rfl := Option.some.inj hq
      exact .inr rfl
    · rintro (huse | heq)
      · have hlt := ((hU _).1 huse).2
        omega
      · cases heq
    · intro q
      simp [withPath, Slot.path, hdirect, hsingle, Prod.ext_iff, and_or_left, or_assoc]
  · obtain ⟨s₁, hind₂, hs⟩ := Option.bind_eq_some_iff.1 hs
    obtain ⟨s₂, hind, hs⟩ := Option.bind_eq_some_iff.1 hs
    obtain rfl := Option.some.inj hs
    set l := (k - (10 + 256)) / 256 with hl
    set r := (k - (10 + 256)) % 256 with hr
    have hbound : l < 256 ∧ r < 256 := by
      unfold Slot.maxfileblks at hdouble
      omega
    have hplace₂ : (diskTree g).InPlace U (i, .indirect2) :=
      ⟨⟨hi, trivial⟩, fun q hq => by cases hq⟩
    have hcell₂ : (diskTree g).cell s.disk (i, .indirect2) = inodeAt i + 60 :=
      cell_eq_slot g s.disk i .indirect2
    rw [← hcell₂] at hind₂
    obtain ⟨hlaid₁, hpoints₁, hnext₁, hlinks₁⟩ := pointedBlock_points ho h hplace₂ hlink hind₂
    have hplace : (diskTree g).InPlace (fun q => U q ∨ q = (i, .indirect2)) (i, .outer l) := by
      refine ⟨⟨hi, hbound.1⟩, fun q hq => ?_⟩
      obtain rfl := Option.some.inj hq
      exact .inr rfl
    have hcell : (diskTree g).cell s₁.disk (i, .outer l) =
        ospfsBlock (oiIndirect2 s₁.disk (inodeAt i)) + 4 * l := cell_eq_slot g s₁.disk i (.outer l)
    rw [← hcell] at hind
    obtain ⟨hlaid, hpoints, hnext, hlinks⟩ :=
      pointedBlock_points ho hlaid₁ hplace (hlink.points hpoints₁ h hi) hind
    have hslot : Slot.ofIndex k = .double l r := by
      rw [Slot.ofIndex, if_neg hdirect, if_neg hsingle]
    have hind₂' : oiIndirect2 s₂.disk (inodeAt i) = oiIndirect2 s₁.disk (inodeAt i) :=
      (hpoints.kept (i, .indirect2) (.inr rfl)).2
    have haddress : ospfsBlock (load32 s₂.disk
        (ospfsBlock (oiIndirect2 s₁.disk (inodeAt i)) + 4 * l)) + 4 * r =
        Slot.address s₂.disk (inodeAt i) (.double l r) := by
      rw [← hind₂']
      rfl
    rw [haddress]
    refine NextBlock.of_link hdouble hlaid (hpoints₁.trans hpoints₁.le hpoints)
      ⟨⟨hi, hbound⟩, fun q hq => ?_⟩ ?_ hb hslot ?_ (hnext.trans hnext₁) (hlinks.trans hlinks₁)
    · obtain rfl := Option.some.inj hq
      exact .inr rfl
    · rintro ((huse | heq) | heq)
      · have hlt := ((hU _).1 huse).2.2
        omega
      · cases heq
      · cases heq
    · intro q
      simp [withPath, Slot.path, hdirect, hsingle, Prod.ext_iff, and_or_left, or_assoc, hl, hr]

end Cs111Labs.Ospfsformat
