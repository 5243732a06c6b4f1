import Cs111Labs.Ospfs.Contents
import Cs111Labs.Ospfs.Directory
import Mathlib.Data.Set.Card

/-!
# The table of directory entries

The entries of all live directories form one table, indexed by directory and
position.  A link count is a number of places in this table.
-/

namespace Cs111Labs.Ospfs

open Foundation Memory

variable {lossless : Prop} {g : Geometry} {m m' m'' : Memory} {own own' : Nat → Prop}
  {a d i j k ino : Nat} {name : Name} {S : Set Nat}

def IsDir (g : Geometry) (m : Memory) (d : Nat) : Prop :=
  d < g.ninodes ∧ oiNlink m (inodeAt d) ≠ 0 ∧ oiFtype m (inodeAt d) = ftypeDir

instance (g : Geometry) (m : Memory) (d : Nat) : Decidable (IsDir g m d) :=
  inferInstanceAs (Decidable (_ ∧ _ ∧ _))

/-- The live inodes that are not symbolic links. -/
def owner (g : Geometry) (m : Memory) (i : Nat) : Prop :=
  i < g.ninodes ∧ oiNlink m (inodeAt i) ≠ 0 ∧ oiFtype m (inodeAt i) ≠ ftypeSymlink

theorem IsDir.owner (h : IsDir g m d) : owner g m d :=
  ⟨h.1, h.2.1, by rw [h.2.2]; decide⟩

theorem owner_congr (hlink : ∀ i < g.ninodes, oiNlink m' (inodeAt i) = oiNlink m (inodeAt i))
    (hftype : ∀ i < g.ninodes, oiFtype m' (inodeAt i) = oiFtype m (inodeAt i)) :
    owner g m' = owner g m := by
  funext i
  refine propext (and_congr_right fun hi => ?_)
  rw [hlink i hi, hftype i hi]

theorem isDir_congr
    (hlink : ∀ i < g.ninodes, oiNlink m' (inodeAt i) = oiNlink m (inodeAt i))
    (hftype : ∀ i < g.ninodes, oiFtype m' (inodeAt i) = oiFtype m (inodeAt i)) :
    IsDir g m' d ↔ IsDir g m d := by
  refine and_congr_right fun hi => ?_
  rw [hlink d hi, hftype d hi]

/-! ## Positions -/

def entryAt (m : Memory) (d k : Nat) : Nat := address m d (128 * k)

/-- The entry of a directory at a position, if there is one. -/
def slot (g : Geometry) (m : Memory) (p : Nat × Nat) : Option (Nat × Name) :=
  if IsDir g m p.1 ∧ p.2 < entryCount m (inodeAt p.1) then
    some (odIno m (entryAt m p.1 p.2), odName m (entryAt m p.1 p.2))
  else none

theorem slot_eq_some (hd : IsDir g m d) (hk : k < entryCount m (inodeAt d)) :
    slot g m (d, k) = some (odIno m (entryAt m d k), odName m (entryAt m d k)) :=
  if_pos ⟨hd, hk⟩

theorem slot_eq_none (h : ¬ (IsDir g m d ∧ k < entryCount m (inodeAt d))) :
    slot g m (d, k) = none := if_neg h

theorem of_slot_eq_some (h : slot g m (d, k) = some (ino, name)) :
    IsDir g m d ∧ k < entryCount m (inodeAt d) ∧
      odIno m (entryAt m d k) = ino ∧ odName m (entryAt m d k) = name := by
  unfold slot at h
  split_ifs at h with hvalid
  simp only [Option.some.injEq, Prod.mk.injEq] at h
  exact ⟨hvalid.1, hvalid.2, h⟩

theorem lt_entryCount_iff (hsize : 128 ∣ oiSize m (inodeAt d)) :
    k < entryCount m (inodeAt d) ↔ 128 * k + 128 ≤ oiSize m (inodeAt d) := by
  unfold entryCount
  omega

theorem address_add {n : Nat} (hn : n < 128)
    (hsize : 128 * k + n < oiSize m (inodeAt d)) :
    address m d (128 * k + n) = entryAt m d k + n :=
  address_add_of_block (by omega) hsize

/-- An entry is made of the bytes of its directory. -/
theorem slot_congr (hdir : IsDir g m' d ↔ IsDir g m d)
    (hsize : IsDir g m d → 128 ∣ oiSize m (inodeAt d))
    (hsize' : IsDir g m d → 128 ∣ oiSize m' (inodeAt d))
    (hcount : IsDir g m d →
      (k < entryCount m' (inodeAt d) ↔ k < entryCount m (inodeAt d)))
    (hbytes : IsDir g m d → ∀ off, off < oiSize m (inodeAt d) →
      off < oiSize m' (inodeAt d) → 128 * k ≤ off → off < 128 * k + 128 →
      content m' d off = content m d off) :
    slot g m' (d, k) = slot g m (d, k) := by
  by_cases hvalid : IsDir g m d ∧ k < entryCount m (inodeAt d)
  · obtain ⟨hd, hk⟩ := hvalid
    have hk' := (hcount hd).2 hk
    rw [slot_eq_some (hdir.2 hd) hk', slot_eq_some hd hk]
    rw [lt_entryCount_iff (hsize hd)] at hk
    rw [lt_entryCount_iff (hsize' hd)] at hk'
    have hbyte : ∀ n < 128, m' (entryAt m' d k + n) = m (entryAt m d k + n) := by
      intro n hn
      have hcontent := hbytes hd (128 * k + n) (by omega) (by omega) (by omega) (by omega)
      unfold content at hcontent
      rwa [address_add hn (by omega), address_add hn (by omega)] at hcontent
    have hino : odIno m' (entryAt m' d k) = odIno m (entryAt m d k) :=
      load32_congr fun n hn => hbyte n (by omega)
    have hname : odName m' (entryAt m' d k) = odName m (entryAt m d k) :=
      cstring_congr fun n hn => by
        rw [Nat.add_assoc, Nat.add_assoc]
        exact hbyte (4 + n) (by omega)
    rw [hino, hname]
  · rw [slot_eq_none hvalid, slot_eq_none]
    rintro ⟨hd, hk⟩
    exact hvalid ⟨hdir.1 hd, (hcount (hdir.1 hd)).1 hk⟩

/-! ## Link counts -/

/-- The places of the table that name an inode. -/
def entries (g : Geometry) (m : Memory) (i : Nat) : Set (Nat × Nat) :=
  {p | ∃ name, slot g m p = some (i, name)}

theorem mem_entries {p : Nat × Nat} :
    p ∈ entries g m i ↔ ∃ name, slot g m p = some (i, name) := Iff.rfl

theorem entries_congr (h : ∀ p, slot g m' p = slot g m p) : entries g m' i = entries g m i := by
  ext p
  simp only [mem_entries, h]

/-- The invariant between the calls. -/
structure Sound (lossless : Prop) (g : Geometry) (m : Memory) : Prop where
  stored : Stored lossless g m (owner g m)
  entrySize : ∀ d, IsDir g m d → 128 ∣ oiSize m (inodeAt d)
  reserved : oiNlink m (inodeAt 0) ≠ 0 ∧ oiFtype m (inodeAt 0) ≠ ftypeDir
  named : ∀ p ino name, slot g m p = some (ino, name) → ino < g.ninodes
  links : ∀ i, 0 < i → i < g.ninodes → ¬ IsDir g m i →
    oiNlink m (inodeAt i) = (entries g m i).ncard

theorem Stored.dir_blockno (h : Stored lossless g m own) (hown : own d)
    (hd : oiFtype m (inodeAt d) = ftypeDir) {off : Nat}
    (hoff : off < oiSize m (inodeAt d)) : blocknoOf m d off ≠ 0 := by
  have hfile := h.file d hown
  rw [blocknoOf_eq hfile.ftype hoff]
  exact (hfile.filled (.inr hd) _ (hfile.inUse (hfile.lt_blocks hoff))).resolve_right
    (Slot.ofIndex_not_isMeta _)

theorem entries_finite (h : Stored lossless g m (owner g m)) (i : Nat) :
    (entries g m i).Finite := by
  refine ((Set.finite_Iio g.ninodes).prod (Set.finite_Iio (2 ^ 26))).subset ?_
  rintro ⟨d, k⟩ ⟨name, hslot⟩
  obtain ⟨hd, hk, -⟩ := of_slot_eq_some hslot
  have hsize := (h.file d hd.owner).size_le
  unfold Slot.maxfileblks at hsize
  unfold entryCount at hk
  simp only [Set.mem_prod, Set.mem_Iio]
  exact ⟨hd.1, by omega⟩

/-- Link counts do not overflow: the entries have different addresses on the disk. -/
theorem ncard_entries_le (h : Stored lossless g m (owner g m))
    (hsize : ∀ d, IsDir g m d → 128 ∣ oiSize m (inodeAt d)) (i : Nat) :
    (entries g m i).ncard ≤ 65536 := by
  have hbound : (Set.Iio 65536 : Set Nat).ncard = 65536 := by
    rw [← Nat.card_coe_set_eq]
    simp
  rw [← hbound]
  refine Set.ncard_le_ncard_of_injOn (fun p => entryAt m p.1 p.2 / 128) ?_ ?_
    (Set.finite_Iio _)
  · rintro ⟨d, k⟩ ⟨name, hslot⟩
    obtain ⟨hd, hk, -⟩ := of_slot_eq_some hslot
    have hlt : 128 * k < oiSize m (inodeAt d) := by
      have hle := (lt_entryCount_iff (hsize d hd)).1 hk
      omega
    have hpos := h.dir_blockno hd.owner hd.2.2 hlt
    have hdata : g.IsData (blocknoOf m d (128 * k)) :=
      h.safe.held_mem _ _ (h.owns hd.owner hlt hpos)
    have hlast := hdata.2
    have hblocks := g.nblocks_le
    have haddress := h.address_of_pos hd.owner hlt hpos
    change address m d (128 * k) / 128 < 65536
    omega
  · rintro ⟨d, k⟩ ⟨name, hslot⟩ ⟨d', k'⟩ ⟨name', hslot'⟩ heq
    obtain ⟨hd, hk, -⟩ := of_slot_eq_some hslot
    obtain ⟨hd', hk', -⟩ := of_slot_eq_some hslot'
    have hlt : 128 * k < oiSize m (inodeAt d) := by
      have hle := (lt_entryCount_iff (hsize d hd)).1 hk
      omega
    have hlt' : 128 * k' < oiSize m (inodeAt d') := by
      have hle := (lt_entryCount_iff (hsize d' hd')).1 hk'
      omega
    have hpos := h.dir_blockno hd.owner hd.2.2 hlt
    have hpos' := h.dir_blockno hd'.owner hd'.2.2 hlt'
    have haddress : address m d (128 * k) = address m d' (128 * k') := by
      have h1 := h.address_of_pos hd.owner hlt hpos
      have h2 := h.address_of_pos hd'.owner hlt' hpos'
      change address m d (128 * k) / 128 = address m d' (128 * k') / 128 at heq
      omega
    obtain ⟨rfl, hoff⟩ := h.address_injective hd.owner hd'.owner hlt hlt' hpos haddress
    have hk : k = k' := by omega
    rw [hk]

end Cs111Labs.Ospfs
