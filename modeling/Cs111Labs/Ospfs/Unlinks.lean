import Cs111Labs.Ospfs.Links

/-!
# Unlinking a file

`ospfs_unlink` clears a place of a directory; the last link takes the blocks of
the file along.
-/

namespace Cs111Labs.Ospfs

open Foundation Memory

variable {lossless : Prop} {g : Geometry} {m m' m'' : Memory} {own own' : Nat → Prop}
  {a d i j k ino od src : Nat} {name : Name} {S R : Set Nat}

/-! ## Giving up the blocks of a file -/

structure Released (lossless : Prop) (g : Geometry) (own : Nat → Prop) (i : Nat)
    (m m' : Memory) : Prop where
  stored : Stored lossless g m' fun j => own j ∧ j ≠ i
  changes : ChangesOnly (reach g m own i) m m'
  size : oiSize m' (inodeAt i) = 0

/-- The last link of the file can be removed. -/
def Releasable (lossless : Prop) (g : Geometry) (own : Nat → Prop) (m : Memory) (i : Nat) :
    Prop :=
  Released lossless g own i m (changeSize m (inodeAt i) 0).2

theorem changeSize_zero (m : Memory) (oi : Nat) :
    changeSize m oi 0 = ((shrinkLoop oi 0 maxRounds none m).1,
      setOiSize (shrinkLoop oi 0 maxRounds none m).2 oi 0) := by
  apply @changeSize_of_grown m m oi 0 0
  rw [show maxRounds = (2 ^ 22 - 1) + 1 from rfl, growLoop]
  exact if_neg (Nat.not_lt_zero _)

theorem oiSize_changeSize_zero (m : Memory) (oi : Nat) :
    oiSize (changeSize m oi 0).2 oi = 0 := by
  rw [changeSize_zero]
  exact load32_store32_same _ oi 0

/-- An owner without blocks may go. -/
theorem Stored.drop (h : Stored lossless g m own) (hsize : oiSize m (inodeAt i) = 0) :
    Stored lossless g m fun j => own j ∧ j ≠ i := by
  refine h.frame (.refl (S := ∅) m) (fun a ha => absurd ha (Set.notMem_empty a)) ?_ ?_ ?_
  · intro j _ _
    exact ⟨⟨fun a ha => absurd ha (Set.notMem_empty a),
      fun _ _ _ _ a ha => absurd ha (Set.notMem_empty a)⟩, rfl⟩
  · exact fun j hj hj' => absurd hj.1 hj'
  · intro _ j hj hgone
    have hji : j = i := by
      by_contra hne
      exact hgone ⟨hj, hne⟩
    rw [hji, blockCount_of_size hsize]
    rfl

theorem releasable_of_direct (h : Stored lossless g m own) (hown : own i)
    (hsize : oiSize m (inodeAt i) ≤ 10240) : Releasable lossless g own m i := by
  obtain ⟨r, m', hchange, hresized, -⟩ :=
    resizable_of_direct h hown hsize (Nat.zero_le 10240)
  have hzero := oiSize_changeSize_zero m (inodeAt i)
  unfold Releasable
  rw [hchange] at hzero ⊢
  exact ⟨hresized.stored.drop hzero, hresized.changes, hzero⟩

namespace Released

theorem sameInode (hr : Released lossless g own i m m') (h : Stored lossless g m own)
    (hj : j < g.ninodes) (hij : j ≠ i) : SameInode m m' j :=
  fun a ha => hr.changes a (h.not_mem_reach_of_inode hj hij ha)

theorem field (hr : Released lossless g own i m m') (h : Stored lossless g m own)
    (hj : j < g.ninodes) {n : Nat} (hn : 4 ≤ n) (hn' : n ≤ 12) :
    load32 m' (inodeAt j + n) = load32 m (inodeAt j + n) :=
  h.field_of_reach hj hr.changes hn hn'

theorem sameFile (hr : Released lossless g own i m m') (h : Stored lossless g m own)
    (hi : i < g.ninodes) (hj : own j) (hij : j ≠ i) : SameFile m m' j :=
  h.sameFile_of_reach hi hj hij hr.changes

theorem slot_eq (hr : Released lossless g own i m m') (h : Stored lossless g m own)
    (hi : i < g.ninodes) (hdirs : ∀ d, IsDir g m d → own d ∧ d ≠ i)
    (hsize : ∀ d, IsDir g m d → 128 ∣ oiSize m (inodeAt d)) :
    slot g m' (d, k) = slot g m (d, k) := by
  have hfile : IsDir g m d → SameFile m m' d := fun hd =>
    hr.sameFile h hi (hdirs d hd).1 (hdirs d hd).2
  refine slot_congr (isDir_congr (fun j hj => hr.field h hj (by decide) (by decide))
    fun j hj => hr.field h hj (by decide) (by decide)) (hsize d) ?_ ?_ ?_
  · intro hd
    rw [(hfile hd).size]
    exact hsize d hd
  · intro hd
    simp only [entryCount, (hfile hd).size]
  · exact fun hd off hoff _ _ _ => (hfile hd).content (h.file d (hdirs d hd).1) hoff

end Released

/-! ## Unlinking a file -/

theorem findDirentry_some {oi : Nat} (h : findDirentry m oi name = some od) :
    ∃ k < entryCount m oi, od = ospfsInodeData m oi (128 * k) ∧ odIno m od > 0 ∧
      odName m od = name := by
  unfold findDirentry at h
  rw [Option.map_eq_some_iff] at h
  obtain ⟨off, hoff, rfl⟩ := h
  obtain ⟨k, hk, rfl, hentry⟩ := findOffset_some hoff
  simp only [isEntry, Bool.and_eq_true, decide_eq_true_eq] at hentry
  exact ⟨k, hk, rfl, hentry⟩

/-- The three scans of a directory agree. -/
theorem unlinkEntry_eq {oi : Nat} (hsize : 128 ∣ oiSize m oi) :
    unlinkEntry m oi name = findDirentry m oi name := by
  unfold unlinkEntry findDirentry
  cases hfind : findOffset m oi (isEntry m name) with
  | some off => rfl
  | none =>
      refine if_pos ?_
      unfold entryCount
      omega

/-- The text of a symbolic link is cleared. -/
def clearText (m : Memory) (oi : Nat) : Memory :=
  if oiFtype m oi = ftypeSymlink then copy (setOiSize m oi 0) (oi + 12) [0] else m

/-- What `ospfs_unlink` does when it finds the entry. -/
structure Unlinked (lossless : Prop) (g : Geometry) (d k ino : Nat) (name : Name)
    (m m₂ m₃ m' : Memory) : Prop where
  found : (findDirentry m (inodeAt d) name).isSome
  here : slot g m (d, k) = some (ino, name)
  pos : 0 < ino
  cleared : m₂ = setOdIno (clearText m (inodeAt ino)) (entryAt m d k) 0
  counted : m₃ = setOiNlink m₂ (inodeAt ino)
    ((oiNlink m₂ (inodeAt ino) + (2 ^ 32 - 1)) % 2 ^ 32)
  last : m' = if oiNlink m₃ (inodeAt ino) = 0 then (changeSize m₃ (inodeAt ino) 0).2 else m₃

theorem clearText_changesOnly (m : Memory) (i : Nat) :
    ChangesOnly (inodeBytes i) m (clearText m (inodeAt i)) := by
  unfold clearText
  split_ifs with hsymlink
  · have hsize : ChangesOnly (inodeBytes i) m (store32 m (inodeAt i) 0) :=
      store32_inode (.refl m) (n := 0) (by decide)
    refine hsize.trans ((copy_changesOnly _ _ _).mono fun a ha => ?_)
    simp only [inodeBytes, List.length_singleton, Set.mem_Ico] at *
    omega
  · exact .refl m

theorem clearText_field (m : Memory) (oi : Nat) :
    oiFtype (clearText m oi) oi = oiFtype m oi ∧ oiNlink (clearText m oi) oi = oiNlink m oi := by
  unfold clearText
  split_ifs with hsymlink
  · have hsize : ChangesOnly _ m (setOiSize m oi 0) := store32_changesOnly m oi 0
    have hcopy := copy_changesOnly (setOiSize m oi 0) (oi + 12) [0]
    constructor <;>
      refine (hcopy.load32 fun c hc hmem => ?_).trans
        (hsize.load32 fun c hc hmem => ?_) <;>
      simp only [List.length_singleton, Set.mem_Ico] at hmem <;>
      omega
  · exact ⟨rfl, rfl⟩

theorem ospfsUnlink_cases (h : Sound lossless g m) (hd : IsDir g m d) (hino : ino < g.ninodes)
    (hnamed : ∀ od, findDirentry m (inodeAt d) name = some od → odIno m od = ino) :
    (ospfsUnlink m d name ino = (some .enoent, m) ∧
        findDirentry m (inodeAt d) name = none) ∨
      ∃ k m₂ m₃ m', ospfsUnlink m d name ino = (none, m') ∧
        Unlinked lossless g d k ino name m m₂ m₃ m' := by
  unfold ospfsUnlink
  rw [h.stored.fits.ospfsInode hd.1, h.stored.fits.ospfsInode hino]
  simp only [unlinkEntry_eq (h.entrySize d hd)]
  cases hfind : findDirentry m (inodeAt d) name with
  | none => exact .inl ⟨rfl, rfl⟩
  | some od =>
      obtain ⟨k, hk, rfl, hpos, hname⟩ := findDirentry_some hfind
      have hslot : slot g m (d, k) = some (ino, name) := by
        rw [slot_eq_some hd hk]
        simp only [Option.some.injEq, Prod.mk.injEq]
        exact ⟨hnamed _ hfind, hname⟩
      refine .inr ⟨k, _, _, _, ?_, by rw [hfind]; rfl, hslot, ?_, rfl, rfl, rfl⟩
      · exact (apply_ite (Prod.mk (none : Option Errno)) _ _ _).symm
      · exact hnamed _ hfind ▸ hpos

theorem clearText_of_ne (h : oiFtype m (inodeAt i) ≠ ftypeSymlink) :
    clearText m (inodeAt i) = m := if_neg h

/-- An inode that is not a directory stays so when its text is cleared. -/
theorem clearText_stored (h : Sound lossless g m) (hi : i < g.ninodes) :
    Stored lossless g (clearText m (inodeAt i)) (owner g m) := by
  by_cases hsymlink : oiFtype m (inodeAt i) = ftypeSymlink
  · have hchanges := clearText_changesOnly m i
    refine h.stored.frame hchanges ?_ ?_ (fun j hj hj' => absurd hj hj')
      fun _ j hj hj' => absurd hj hj'
    · intro a ha
      have hlow := (Set.mem_Ico.1 ha).1
      unfold inodeAt at hlow
      omega
    · intro j hj _
      have hji : j ≠ i := fun heq => hj.2.2 (heq ▸ hsymlink)
      exact ⟨spares_of_inode h.stored hi hji, load_of_inode hchanges hji (by decide)⟩
  · rw [clearText_of_ne hsymlink]
    exact h.stored

theorem clearText_sameFile (h : Sound lossless g m) (hi : i < g.ninodes)
    (hj : owner g m j) : SameFile m (clearText m (inodeAt i)) j := by
  by_cases hsymlink : oiFtype m (inodeAt i) = ftypeSymlink
  · have hji : j ≠ i := fun heq => hj.2.2 (heq ▸ hsymlink)
    exact sameFile_of_inode h.stored hi hj hji (clearText_changesOnly m i)
  · rw [clearText_of_ne hsymlink]
    exact .refl m j

theorem clearText_fields (m : Memory) (i j : Nat) :
    oiFtype (clearText m (inodeAt i)) (inodeAt j) = oiFtype m (inodeAt j) ∧
      oiNlink (clearText m (inodeAt i)) (inodeAt j) = oiNlink m (inodeAt j) := by
  by_cases hji : j = i
  · subst hji
    exact clearText_field m (inodeAt j)
  · exact ⟨load_of_inode (clearText_changesOnly m i) hji (by decide),
      load_of_inode (clearText_changesOnly m i) hji (by decide)⟩

theorem clearText_isDir (m : Memory) (i j : Nat) :
    IsDir g (clearText m (inodeAt i)) j ↔ IsDir g m j :=
  isDir_congr (fun j _ => (clearText_fields m i j).2) fun j _ => (clearText_fields m i j).1

theorem clearText_slot (h : Sound lossless g m) (hi : i < g.ninodes)
    (hdir : oiFtype m (inodeAt i) ≠ ftypeDir) :
    slot g (clearText m (inodeAt i)) (d, k) = slot g m (d, k) :=
  slot_eq_of_inode h.stored hi (fun _ hd => hd.owner) h.entrySize (clearText_changesOnly m i)
    (fun hd => hdir hd.2.2) fun hd => hdir ((clearText_isDir m i i).1 hd).2.2

namespace Unlinked

variable {m₂ m₃ : Memory}

theorem nlink_pos (hu : Unlinked lossless g d k ino name m m₂ m₃ m') (h : Sound lossless g m)
    (hino : ino < g.ninodes) (hdir : oiFtype m (inodeAt ino) ≠ ftypeDir) :
    0 < oiNlink m (inodeAt ino) := by
  rw [h.links ino hu.pos hino fun hd => hdir hd.2.2,
    Set.ncard_pos (entries_finite h.stored ino)]
  exact ⟨(d, k), name, hu.here⟩

theorem entry_eq (hu : Unlinked lossless g d k ino name m m₂ m₃ m')
    (h : Sound lossless g m) (hd : IsDir g m d)
    (hdir : oiFtype m (inodeAt ino) ≠ ftypeDir) (hino : ino < g.ninodes) :
    128 * k + 128 ≤ oiSize (clearText m (inodeAt ino)) (inodeAt d) ∧
      entryAt (clearText m (inodeAt ino)) d k = entryAt m d k := by
  have hdi : d ≠ ino := fun heq => hdir (heq ▸ hd.2.2)
  obtain ⟨-, hk, -⟩ := of_slot_eq_some hu.here
  have hlt := (lt_entryCount_iff (h.entrySize d hd)).1 hk
  have hchanges := clearText_changesOnly m ino
  have hsize : oiSize (clearText m (inodeAt ino)) (inodeAt d) = oiSize m (inodeAt d) :=
    load_of_inode hchanges hdi (n := 0) (by decide)
  exact ⟨by omega, (spares_of_inode h.stored hino hdi).address_eq h.stored hd.owner hchanges
    (load_of_inode hchanges hdi (by decide)) (by omega)⟩

theorem writes (hu : Unlinked lossless g d k ino name m m₂ m₃ m') (h : Sound lossless g m)
    (hd : IsDir g m d) (hino : ino < g.ninodes)
    (hdir : oiFtype m (inodeAt ino) ≠ ftypeDir) :
    Writes (clearText m (inodeAt ino)) d (Set.Ico (128 * k) (128 * k + 128)) m₂ := by
  obtain ⟨hlt, hentry⟩ := hu.entry_eq h hd hdir hino
  refine writes_of_entry (clearText_stored h hino) hd.owner
    ((clearText_fields m ino d).1.trans hd.2.2) hlt ?_
  rw [hu.cleared, hentry]
  refine (setOdIno_changesOnly 0).mono fun a ha => ?_
  simp only [Set.mem_Ico] at *
  omega

theorem stored₂ (hu : Unlinked lossless g d k ino name m m₂ m₃ m') (h : Sound lossless g m)
    (hd : IsDir g m d) (hino : ino < g.ninodes)
    (hdir : oiFtype m (inodeAt ino) ≠ ftypeDir) : Stored lossless g m₂ (owner g m) :=
  (hu.writes h hd hino hdir).stored (clearText_stored h hino) hd.owner

theorem fields₂ (hu : Unlinked lossless g d k ino name m m₂ m₃ m') (h : Sound lossless g m)
    (hd : IsDir g m d) (hino : ino < g.ninodes)
    (hdir : oiFtype m (inodeAt ino) ≠ ftypeDir) (hj : j < g.ninodes) :
    oiFtype m₂ (inodeAt j) = oiFtype m (inodeAt j) ∧
      oiNlink m₂ (inodeAt j) = oiNlink m (inodeAt j) := by
  have hload : ∀ n ≤ 60, load32 m₂ (inodeAt j + n) =
      load32 (clearText m (inodeAt ino)) (inodeAt j + n) := fun n hn =>
    (hu.writes h hd hino hdir).load (clearText_stored h hino) hd.owner hj hn
  exact ⟨(hload 4 (by decide)).trans (clearText_fields m ino j).1,
    (hload 8 (by decide)).trans (clearText_fields m ino j).2⟩

theorem changes (hu : Unlinked lossless g d k ino name m m₂ m₃ m') :
    ChangesOnly (fieldBytes ino) m₂ m₃ := by
  rw [hu.counted]
  exact setOiNlink_fieldBytes _

theorem ftype₃ (hu : Unlinked lossless g d k ino name m m₂ m₃ m') :
    oiFtype m₃ (inodeAt ino) = oiFtype m₂ (inodeAt ino) := by
  rw [hu.counted]
  exact oiFtype_setOiNlink _

theorem stored₃ (hu : Unlinked lossless g d k ino name m m₂ m₃ m') (h : Sound lossless g m)
    (hd : IsDir g m d) (hino : ino < g.ninodes)
    (hdir : oiFtype m (inodeAt ino) ≠ ftypeDir) : Stored lossless g m₃ (owner g m) :=
  (hu.stored₂ h hd hino hdir).field hino hu.changes hu.ftype₃

theorem ftype (hu : Unlinked lossless g d k ino name m m₂ m₃ m') (h : Sound lossless g m)
    (hd : IsDir g m d) (hino : ino < g.ninodes)
    (hdir : oiFtype m (inodeAt ino) ≠ ftypeDir) (hj : j < g.ninodes) :
    oiFtype m₃ (inodeAt j) = oiFtype m (inodeAt j) := by
  refine Eq.trans ?_ (hu.fields₂ h hd hino hdir hj).1
  by_cases hji : j = ino
  · exact hji ▸ hu.ftype₃
  · exact load_of_inode (hu.changes.mono (fieldBytes_subset ino)) hji (by decide)

theorem nlink_of_ne (hu : Unlinked lossless g d k ino name m m₂ m₃ m')
    (h : Sound lossless g m) (hd : IsDir g m d) (hino : ino < g.ninodes)
    (hdir : oiFtype m (inodeAt ino) ≠ ftypeDir) (hj : j < g.ninodes) (hji : j ≠ ino) :
    oiNlink m₃ (inodeAt j) = oiNlink m (inodeAt j) :=
  (load_of_inode (hu.changes.mono (fieldBytes_subset ino)) hji (by decide)).trans
    (hu.fields₂ h hd hino hdir hj).2

theorem nlink (hu : Unlinked lossless g d k ino name m m₂ m₃ m') (h : Sound lossless g m)
    (hd : IsDir g m d) (hino : ino < g.ninodes)
    (hdir : oiFtype m (inodeAt ino) ≠ ftypeDir) :
    oiNlink m₃ (inodeAt ino) = oiNlink m (inodeAt ino) - 1 := by
  have hpos := hu.nlink_pos h hino hdir
  have hlt := load32_lt m (inodeAt ino + 8)
  rw [hu.counted, (hu.fields₂ h hd hino hdir hino).2]
  refine (oiNlink_setOiNlink (Nat.mod_lt _ (by decide))).trans ?_
  unfold oiNlink at *
  omega

theorem isDir_iff (hu : Unlinked lossless g d k ino name m m₂ m₃ m') (h : Sound lossless g m)
    (hd : IsDir g m d) (hino : ino < g.ninodes)
    (hdir : oiFtype m (inodeAt ino) ≠ ftypeDir) : IsDir g m₃ j ↔ IsDir g m j := by
  refine and_congr_right fun hj => ?_
  rw [hu.ftype h hd hino hdir hj]
  by_cases hji : j = ino
  · subst hji
    exact ⟨fun hs => absurd hs.2 hdir, fun hs => absurd hs.2 hdir⟩
  · rw [hu.nlink_of_ne h hd hino hdir hj hji]

theorem sameInode₃ (hu : Unlinked lossless g d k ino name m m₂ m₃ m')
    (h : Sound lossless g m) (hd : IsDir g m d) (hino : ino < g.ninodes)
    (hdir : oiFtype m (inodeAt ino) ≠ ftypeDir) (hj : j < g.ninodes) (hji : j ≠ ino) :
    SameInode m m₃ j :=
  ((sameInode_of_inode hji (clearText_changesOnly m ino)).trans
    ((hu.writes h hd hino hdir).sameInode (clearText_stored h hino) hd.owner hj)).trans
      (sameInode_of_inode hji (hu.changes.mono (fieldBytes_subset ino)))

theorem sameFile₃ (hu : Unlinked lossless g d k ino name m m₂ m₃ m')
    (h : Sound lossless g m) (hd : IsDir g m d) (hino : ino < g.ninodes)
    (hdir : oiFtype m (inodeAt ino) ≠ ftypeDir) (hj : owner g m j) (hjd : j ≠ d) :
    SameFile m m₃ j :=
  ((clearText_sameFile h hino hj).trans
    ((hu.writes h hd hino hdir).sameFile (clearText_stored h hino) hd.owner hj hjd)).trans
      (sameFile_of_field (hu.stored₂ h hd hino hdir) hino hj hu.changes hu.ftype₃)

theorem put (hu : Unlinked lossless g d k ino name m m₂ m₃ m') (h : Sound lossless g m)
    (hd : IsDir g m d) (hino : ino < g.ninodes)
    (hdir : oiFtype m (inodeAt ino) ≠ ftypeDir) : Put g m m₃ (d, k) 0 name := by
  have hdirs₂ : ∀ {j}, IsDir g m₂ j ↔ IsDir g m j :=
    isDir_congr (fun j hj => (hu.fields₂ h hd hino hdir hj).2)
      fun j hj => (hu.fields₂ h hd hino hdir hj).1
  have hwrites := hu.writes h hd hino hdir
  have hstored₁ := clearText_stored h hino
  have hsize₁ : ∀ {j}, IsDir g m j →
      oiSize (clearText m (inodeAt ino)) (inodeAt j) = oiSize m (inodeAt j) :=
    fun hj => (clearText_sameFile h hino hj.owner).size
  have hsize₂ : ∀ {j}, IsDir g m j → oiSize m₂ (inodeAt j) = oiSize m (inodeAt j) :=
    fun hj => (hwrites.load hstored₁ hd.owner hj.1 (k := 0) (by decide)).trans (hsize₁ hj)
  have hlast : ∀ p, slot g m₃ p = slot g m₂ p := fun p =>
    slot_eq_of_inode (hu.stored₂ h hd hino hdir) hino (fun _ hdj => (hdirs₂.1 hdj).owner)
      (fun j hdj => by
        rw [hsize₂ (hdirs₂.1 hdj)]
        exact h.entrySize j (hdirs₂.1 hdj))
      (hu.changes.mono (fieldBytes_subset ino)) (fun hs => hdir (hdirs₂.1 hs).2.2)
      fun hs => hdir ((hu.isDir_iff h hd hino hdir).1 hs).2.2
  constructor
  · obtain ⟨-, hk, -⟩ := of_slot_eq_some hu.here
    obtain ⟨hlt, hentry⟩ := hu.entry_eq h hd hdir hino
    have hk₂ : k < entryCount m₂ (inodeAt d) := by
      simp only [entryCount, hsize₂ hd]
      exact hk
    have hentry₂ : entryAt m₂ d k = entryAt m d k :=
      (hwrites.address hstored₁ hd.owner hd.owner (by omega)).trans hentry
    have hname : odName (clearText m (inodeAt ino)) (entryAt m d k) = name := by
      have hslot := clearText_slot (d := d) (k := k) h hino hdir
      rw [hu.here] at hslot
      have hold := (of_slot_eq_some hslot).2.2.2
      rwa [hentry] at hold
    rw [hlast, slot_eq_some (hdirs₂.2 hd) hk₂, hentry₂, hu.cleared,
      odIno_setOdIno (by decide), odName_setOdIno, hname]
  · rintro ⟨e, n⟩ hne
    rw [hlast, hwrites.slot_eq (d := e) (k := n) hstored₁ hd.owner
      (fun _ hdj => ((clearText_isDir m ino _).1 hdj).owner)
      (fun j hdj => by
        have hdj' := (clearText_isDir m ino j).1 hdj
        rw [hsize₁ hdj']
        exact h.entrySize j hdj')
      fun heq off hoff => by
        have hnk : n ≠ k := fun heq' => hne (by rw [heq, heq'])
        simp only [Set.mem_Ico] at hoff
        omega]
    exact clearText_slot h hino hdir

end Unlinked

/-- The last link takes the blocks along; other links leave the file alone. -/
structure LastStep (lossless : Prop) (g : Geometry) (own : Nat → Prop) (i : Nat)
    (m m' : Memory) : Prop where
  stored : Stored lossless g m' fun j => own j ∧ (j = i → oiNlink m (inodeAt i) ≠ 0)
  field : ∀ j < g.ninodes, ∀ n, 4 ≤ n → n ≤ 8 →
    load32 m' (inodeAt j + n) = load32 m (inodeAt j + n)
  sameInode : ∀ j < g.ninodes, j ≠ i → SameInode m m' j
  sameFile : ∀ j, own j → (j = i → oiNlink m (inodeAt i) ≠ 0) → SameFile m m' j
  slot : ∀ p, slot g m' p = slot g m p

theorem lastStep_of_nlink (h : Stored lossless g m own) (hlink : oiNlink m (inodeAt i) ≠ 0) :
    LastStep lossless g own i m m where
  stored := by simpa only [hlink, ne_eq, not_false_eq_true, implies_true, and_true] using h
  field _ _ _ _ _ := rfl
  sameInode j _ _ := .refl m j
  sameFile j _ _ := .refl m j
  slot _ := rfl

theorem lastStep_of_released (h : Stored lossless g m own) (hi : i < g.ninodes)
    (hdirs : ∀ d, IsDir g m d → own d ∧ d ≠ i)
    (hsize : ∀ d, IsDir g m d → 128 ∣ oiSize m (inodeAt d))
    (hlink : oiNlink m (inodeAt i) = 0) (hr : Released lossless g own i m m') :
    LastStep lossless g own i m m' where
  stored := by
    simpa only [hlink, ne_eq, not_true_eq_false, imp_false] using hr.stored
  field _ hj _ hn hn' := hr.field h hj hn (by omega)
  sameInode _ hj hij := hr.sameInode h hj hij
  sameFile _ hj hne := hr.sameFile h hi hj fun heq => hne heq hlink
  slot _ := hr.slot_eq h hi hdirs hsize

theorem changeSize_of_empty {oi : Nat} (hsize : oiSize m oi = 0) :
    changeSize m oi 0 = (none, setOiSize m oi 0) := by
  have hshrink : shrinkLoop oi 0 maxRounds none m = (none, m) := by
    rw [show maxRounds = (2 ^ 22 - 1) + 1 from rfl, shrinkLoop, hsize]
    exact if_neg (lt_irrefl _)
  rw [changeSize_zero, hshrink]

/-- A symbolic link has no blocks. -/
theorem lastStep_of_symlink (h : Stored lossless g m own) (hi : i < g.ninodes)
    (hdirs : ∀ d, IsDir g m d → own d)
    (hsize : ∀ d, IsDir g m d → 128 ∣ oiSize m (inodeAt d)) (hown : ¬ own i)
    (hdir : ¬ IsDir g m i) (hempty : oiSize m (inodeAt i) = 0) :
    LastStep lossless g own i m (changeSize m (inodeAt i) 0).2 := by
  rw [changeSize_of_empty hempty]
  have hstore : ChangesOnly (Set.Ico (inodeAt i) (inodeAt i + 4)) m
      (setOiSize m (inodeAt i) 0) := store32_changesOnly m _ 0
  have hchanges : ChangesOnly (inodeBytes i) m (setOiSize m (inodeAt i) 0) :=
    hstore.mono fun a ha => by
      simp only [inodeBytes, Set.mem_Ico] at *
      omega
  have hfield : ∀ j < g.ninodes, ∀ n, 4 ≤ n → n ≤ 8 →
      load32 (setOiSize m (inodeAt i) 0) (inodeAt j + n) = load32 m (inodeAt j + n) := by
    intro j _ n hn hn'
    refine hstore.load32 fun c hc hmem => ?_
    simp only [inodeAt, Set.mem_Ico] at hmem
    omega
  refine ⟨?_, hfield, fun j _ hji => sameInode_of_inode hji hchanges,
    fun j hj _ => sameFile_of_inode h hi hj (fun heq => hown (heq ▸ hj)) hchanges, ?_⟩
  · have hstored : Stored lossless g (setOiSize m (inodeAt i) 0) own := by
      refine h.frame hchanges ?_ ?_ (fun j hj hj' => absurd hj hj')
        fun _ j hj hj' => absurd hj hj'
      · intro a ha
        have hlow := (Set.mem_Ico.1 ha).1
        unfold inodeAt at hlow
        omega
      · intro j hj _
        have hji : j ≠ i := fun heq => hown (heq ▸ hj)
        exact ⟨spares_of_inode h hi hji, load_of_inode hchanges hji (by decide)⟩
    have hsame : (fun j => own j ∧ (j = i → oiNlink m (inodeAt i) ≠ 0)) = own := by
      funext j
      exact propext ⟨fun hj => hj.1, fun hj => ⟨hj, fun heq => absurd (heq ▸ hj) hown⟩⟩
    rwa [hsame]
  · refine fun p => slot_eq_of_inode h hi hdirs hsize hchanges hdir fun hd => hdir ?_
    refine (isDir_congr (fun j hj => ?_) fun j hj => ?_).1 hd
    · exact hfield j hj 8 (by decide) (by decide)
    · exact hfield j hj 4 (by decide) (by decide)

namespace Unlinked

variable {m₂ m₃ : Memory}

theorem entrySize₃ (hu : Unlinked lossless g d k ino name m m₂ m₃ m')
    (h : Sound lossless g m) (hd : IsDir g m d) (hino : ino < g.ninodes)
    (hdir : oiFtype m (inodeAt ino) ≠ ftypeDir) (hj : IsDir g m j) :
    oiSize m₃ (inodeAt j) = oiSize m (inodeAt j) := by
  have hji : j ≠ ino := fun heq => hdir (heq ▸ hj.2.2)
  exact (hu.sameInode₃ h hd hino hdir hj.1 hji).load (n := 0) (by decide)

/-- The text of a symbolic link is gone. -/
theorem size_symlink (hu : Unlinked lossless g d k ino name m m₂ m₃ m')
    (h : Sound lossless g m) (hd : IsDir g m d) (hino : ino < g.ninodes)
    (hsymlink : oiFtype m (inodeAt ino) = ftypeSymlink) :
    oiSize m₃ (inodeAt ino) = 0 := by
  have hdir : oiFtype m (inodeAt ino) ≠ ftypeDir := by rw [hsymlink]; decide
  have h₃ : oiSize m₃ (inodeAt ino) = oiSize m₂ (inodeAt ino) :=
    hu.changes.load32 fun c hc hmem => by
      simp only [fieldBytes, Set.mem_Ico] at hmem
      omega
  have h₂ : oiSize m₂ (inodeAt ino) = oiSize (clearText m (inodeAt ino)) (inodeAt ino) :=
    (hu.writes h hd hino hdir).load (clearText_stored h hino) hd.owner hino (k := 0)
      (by decide)
  have h₁ : oiSize (clearText m (inodeAt ino)) (inodeAt ino) = 0 := by
    unfold clearText
    rw [if_pos hsymlink]
    exact (load_copy_of_disjoint (by omega)).trans (load32_store32_same m _ 0)
  exact (h₃.trans h₂).trans h₁

theorem lastStep (hu : Unlinked lossless g d k ino name m m₂ m₃ m') (h : Sound lossless g m)
    (hd : IsDir g m d) (hino : ino < g.ninodes)
    (hdir : oiFtype m (inodeAt ino) ≠ ftypeDir)
    (hrelease : owner g m ino → oiNlink m (inodeAt ino) = 1 →
      Releasable lossless g (owner g m) m₃ ino) :
    LastStep lossless g (owner g m) ino m₃ m' := by
  have hstored := hu.stored₃ h hd hino hdir
  have hdirs : ∀ j, IsDir g m₃ j → IsDir g m j := fun j hj =>
    (hu.isDir_iff h hd hino hdir).1 hj
  have hsize : ∀ j, IsDir g m₃ j → 128 ∣ oiSize m₃ (inodeAt j) := fun j hj => by
    rw [hu.entrySize₃ h hd hino hdir (hdirs j hj)]
    exact h.entrySize j (hdirs j hj)
  have hpos := hu.nlink_pos h hino hdir
  have hnlink := hu.nlink h hd hino hdir
  rw [hu.last]
  split_ifs with hzero
  · have hone : oiNlink m (inodeAt ino) = 1 := by omega
    by_cases hsymlink : oiFtype m (inodeAt ino) = ftypeSymlink
    · exact lastStep_of_symlink hstored hino (fun j hj => (hdirs j hj).owner) hsize
        (fun ho => ho.2.2 hsymlink) (fun hj => hdir (hdirs ino hj).2.2)
        (hu.size_symlink h hd hino hsymlink)
    · refine lastStep_of_released hstored hino (fun j hj => ⟨(hdirs j hj).owner, ?_⟩) hsize
        hzero (hrelease ⟨hino, hpos.ne', hsymlink⟩ hone)
      rintro rfl
      exact hdir (hdirs j hj).2.2
  · exact lastStep_of_nlink hstored hzero

section

variable (hu : Unlinked lossless g d k ino name m m₂ m₃ m') (h : Sound lossless g m)
  (hd : IsDir g m d) (hino : ino < g.ninodes) (hdir : oiFtype m (inodeAt ino) ≠ ftypeDir)
  (hlast : LastStep lossless g (owner g m) ino m₃ m')

include hu h hd hino hdir hlast

theorem final_ftype (hj : j < g.ninodes) :
    oiFtype m' (inodeAt j) = oiFtype m (inodeAt j) :=
  (hlast.field j hj 4 (by decide) (by decide)).trans (hu.ftype h hd hino hdir hj)

theorem final_nlink : oiNlink m' (inodeAt ino) = oiNlink m (inodeAt ino) - 1 :=
  (hlast.field ino hino 8 (by decide) (by decide)).trans (hu.nlink h hd hino hdir)

theorem final_sameInode (hj : j < g.ninodes) (hji : j ≠ ino) : SameInode m m' j :=
  (hu.sameInode₃ h hd hino hdir hj hji).trans (hlast.sameInode j hj hji)

/-- Files with other links stay, and so do files with other names. -/
theorem final_sameFile (hj : owner g m j) (hjd : j ≠ d)
    (hlink : j = ino → oiNlink m (inodeAt ino) ≠ 1) : SameFile m m' j := by
  refine (hu.sameFile₃ h hd hino hdir hj hjd).trans (hlast.sameFile j hj fun heq => ?_)
  have hnlink := hu.nlink h hd hino hdir
  have hpos := hu.nlink_pos h hino hdir
  have hne := hlink heq
  omega

theorem final_isDir_iff : IsDir g m' j ↔ IsDir g m j :=
  (isDir_congr (fun j hj => hlast.field j hj 8 (by decide) (by decide))
    fun j hj => hlast.field j hj 4 (by decide) (by decide)).trans
      (hu.isDir_iff h hd hino hdir)

theorem final_owner : owner g m' =
    fun j => owner g m j ∧ (j = ino → oiNlink m₃ (inodeAt ino) ≠ 0) := by
  funext j
  refine propext ?_
  by_cases hji : j = ino
  · subst hji
    have hnlink := hu.final_nlink h hd hino hdir hlast
    have hnlink₃ := hu.nlink h hd hino hdir
    have hpos := hu.nlink_pos h hino hdir
    simp only [owner, hu.final_ftype h hd hino hdir hlast hino, hnlink, hnlink₃, forall_true_left]
    have hne : oiNlink m (inodeAt j) ≠ 0 := hpos.ne'
    tauto
  · have hsame := hu.final_sameInode h hd hino hdir hlast (j := j)
    simp only [hji, false_implies, and_true]
    refine and_congr_right fun hj => ?_
    rw [show oiNlink m' (inodeAt j) = _ from (hsame hj hji).load (by decide),
      show oiFtype m' (inodeAt j) = _ from (hsame hj hji).load (by decide)]
    rfl

theorem final_put : Put g m m' (d, k) 0 name := by
  have hput := hu.put h hd hino hdir
  exact ⟨(hlast.slot _).trans hput.here, fun q hq => (hlast.slot q).trans (hput.others q hq)⟩

/-- Unlinking keeps the invariant. -/
theorem final_sound : Sound lossless g m' where
  stored := by
    rw [hu.final_owner h hd hino hdir hlast]
    exact hlast.stored
  entrySize j hj := by
    have hdj := (hu.final_isDir_iff h hd hino hdir hlast).1 hj
    have hji : j ≠ ino := fun heq => hdir (heq ▸ hdj.2.2)
    rw [show oiSize m' (inodeAt j) = _ from
      (hu.final_sameInode h hd hino hdir hlast hdj.1 hji).load (n := 0) (by decide)]
    exact h.entrySize j hdj
  reserved := by
    have hsame := hu.final_sameInode h hd hino hdir hlast (j := 0)
      (by have := hd.1; omega) hu.pos.ne
    rw [show oiNlink m' (inodeAt 0) = _ from hsame.load (by decide),
      show oiFtype m' (inodeAt 0) = _ from hsame.load (by decide)]
    exact h.reserved
  named := (hu.final_put h hd hino hdir hlast).named (by have := hd.1; omega) h.named
  links i hpos hi hnot := by
    have hput := hu.final_put h hd hino hdir hlast
    have hold := h.links i hpos hi fun hdi =>
      hnot ((hu.final_isDir_iff h hd hino hdir hlast).2 hdi)
    rw [hput.entries_of_ne hpos.ne']
    by_cases hii : i = ino
    · subst hii
      have hmem : (d, k) ∈ entries g m i := ⟨name, hu.here⟩
      rw [Set.ncard_sdiff_singleton_of_mem hmem, hu.final_nlink h hd hino hdir hlast, hold]
    · have hmem : (d, k) ∉ entries g m i := by
        rintro ⟨name', hslot⟩
        rw [hu.here] at hslot
        injection hslot with hslot
        injection hslot with hslot _
        exact hii hslot.symm
      rw [Set.sdiff_singleton_eq_self hmem, ← hold]
      exact (hu.final_sameInode h hd hino hdir hlast hi hii).load (by decide)

end

end Unlinked

end Cs111Labs.Ospfs
