import Cs111Labs.Ospfs.EntryUpdates

/-!
# Creating a file

`ospfs_create` and `ospfs_symlink` fill a free inode and a free place of a
directory.
-/

namespace Cs111Labs.Ospfs

open Foundation Memory

variable {lossless : Prop} {g : Geometry} {m m' m'' : Memory} {own own' : Nat → Prop}
  {a d i j k ino od : Nat} {name symname : Name} {S R : Set Nat}

/-! ## Files and inodes that stay -/

def SameInode (m m' : Memory) (i : Nat) : Prop := ∀ a ∈ inodeBytes i, m' a = m a

namespace SameInode

theorem refl (m : Memory) (i : Nat) : SameInode m m i := fun _ _ => rfl

theorem trans (h : SameInode m m' i) (h' : SameInode m' m'' i) : SameInode m m'' i :=
  fun a ha => (h' a ha).trans (h a ha)

theorem load (h : SameInode m m' i) {n : Nat} (hn : n ≤ 60) :
    load32 m' (inodeAt i + n) = load32 m (inodeAt i + n) :=
  load32_congr fun c hc => h _ (by
    simp only [inodeBytes, Set.mem_Ico]
    omega)

end SameInode

theorem Resized.sameFile (hr : Resized lossless g own i m m') (h : Stored lossless g m own)
    (hi : i < g.ninodes) (hj : own j) (hij : j ≠ i) : SameFile m m' j :=
  h.sameFile_of_reach hi hj hij hr.changes

theorem Writes.sameFile (hw : Writes m i R m') (h : Stored lossless g m own)
    (hown : own i) (hj : own j) (hij : j ≠ i) : SameFile m m' j where
  size := hw.load h hown (h.owners j hj) (k := 0) (by decide)
  ftype := hw.load h hown (h.owners j hj) (by decide)
  bytes _ hoff := hw.blockByte h hown hj hoff fun heq => absurd heq hij

theorem sameInode_of_inode (hij : j ≠ i) (hchanges : ChangesOnly (inodeBytes i) m m') :
    SameInode m m' j := fun a ha => hchanges a (not_mem_inodeBytes_of_ne hij ha)

theorem Resized.sameInode (hr : Resized lossless g own i m m')
    (h : Stored lossless g m own) (hj : j < g.ninodes) (hij : j ≠ i) : SameInode m m' j :=
  fun a ha => hr.changes a (h.not_mem_reach_of_inode hj hij ha)

theorem Writes.sameInode (hw : Writes m i R m') (h : Stored lossless g m own)
    (hown : own i) (hj : j < g.ninodes) : SameInode m m' j :=
  fun _ ha => hw.inode h hown hj ha

/-- The table, the types and the link counts stay. -/
theorem Sound.of_same (h : Sound lossless g m) (hstored : Stored lossless g m' (owner g m))
    (hlink : ∀ j < g.ninodes, oiNlink m' (inodeAt j) = oiNlink m (inodeAt j))
    (hftype : ∀ j < g.ninodes, oiFtype m' (inodeAt j) = oiFtype m (inodeAt j))
    (hzero : 0 < g.ninodes)
    (hslot : ∀ p, slot g m' p = slot g m p)
    (hsize : ∀ d, IsDir g m d → 128 ∣ oiSize m' (inodeAt d)) : Sound lossless g m' where
  stored := by rwa [owner_congr hlink hftype]
  entrySize d hd := hsize d ((isDir_congr hlink hftype).1 hd)
  reserved := by
    rw [hlink 0 hzero, hftype 0 hzero]
    exact h.reserved
  named p i n hp := h.named p i n (hslot p ▸ hp)
  links i hpos hi hdir := by
    rw [hlink i hi, entries_congr hslot]
    exact h.links i hpos hi fun hd => hdir ((isDir_congr hlink hftype).2 hd)

/-- A file is resized, a directory only to the size it had. -/
theorem Sound.resized (h : Sound lossless g m) (hi : i < g.ninodes)
    (hr : Resized lossless g (owner g m) i m m')
    (hsame : IsDir g m i → oiSize m' (inodeAt i) = oiSize m (inodeAt i)) :
    Sound lossless g m' := by
  refine h.of_same hr.stored (fun j hj => hr.field h.stored hj (by decide) (by decide))
    (fun j hj => hr.field h.stored hj (by decide) (by decide)) (by omega) ?_ ?_
  · rintro ⟨d, k⟩
    refine hr.slot_eq h.stored hi (fun d hd => hd.owner) h.entrySize ?_ ?_
    · exact fun hd => hsame hd ▸ h.entrySize i hd
    · intro _ hd
      simp only [entryCount, hsame hd]
  · intro d hd
    by_cases hdi : d = i
    · subst hdi
      exact hsame hd ▸ h.entrySize d hd
    · rw [show oiSize m' (inodeAt d) = _ from hr.load h.stored hd.1 hdi (k := 0) (by decide)]
      exact h.entrySize d hd

/-- Bytes of a file that is not a directory are written. -/
theorem Sound.writes (h : Sound lossless g m) (hown : owner g m i) (hdir : ¬ IsDir g m i)
    (hw : Writes m i R m') : Sound lossless g m' := by
  have hload : ∀ j < g.ninodes, ∀ n ≤ 60,
      load32 m' (inodeAt j + n) = load32 m (inodeAt j + n) :=
    fun j hj n hn => hw.load h.stored hown hj hn
  refine h.of_same (hw.stored h.stored hown) (fun j hj => hload j hj 8 (by decide))
    (fun j hj => hload j hj 4 (by decide)) (by have := hown.1; omega) ?_ ?_
  · rintro ⟨d, k⟩
    by_cases hdi : d = i
    · subst hdi
      rw [slot_eq_none fun hvalid => hdir hvalid.1, slot_eq_none]
      exact fun hvalid => hdir ((isDir_congr (fun j hj => hload j hj 8 (by decide))
        fun j hj => hload j hj 4 (by decide)).1 hvalid.1)
    · exact hw.slot_eq h.stored hown (fun d hd => hd.owner) h.entrySize
        fun heq => absurd heq hdi
  · intro d hd
    rw [show oiSize m' (inodeAt d) = _ from hload d hd.1 0 (by decide)]
    exact h.entrySize d hd

/-! ## Fields that are not pointers -/

/-- The type, the link count and the mode of an inode. -/
def fieldBytes (i : Nat) : Set Nat := Set.Ico (inodeAt i + 4) (inodeAt i + 16)

theorem fieldBytes_subset (i : Nat) : fieldBytes i ⊆ inodeBytes i := by
  intro a ha
  simp only [fieldBytes, inodeBytes, Set.mem_Ico] at *
  omega

theorem spares_of_field (h : Stored lossless g m own) (hi : i < g.ninodes) (j : Nat) :
    Spares m own (fieldBytes i) j where
  inode a ha hpointer := by
    simp only [fieldBytes, pointerBytes, inodeAt, Set.mem_ofPred_eq, Set.mem_Ico] at *
    omega
  blocks _ b _ howns _ ha :=
    not_mem_blockBytes_of_inode (h.safe.held_mem _ b howns : g.IsData b) hi
      (fieldBytes_subset i ha)

theorem Stored.field (h : Stored lossless g m own) (hi : i < g.ninodes)
    (hchanges : ChangesOnly (fieldBytes i) m m')
    (hftype : oiFtype m' (inodeAt i) = oiFtype m (inodeAt i)) :
    Stored lossless g m' own := by
  refine h.frame hchanges ?_ ?_ (fun j hj hj' => absurd hj hj')
    fun _ j hj hj' => absurd hj hj'
  · intro a ha
    have hlow := (Set.mem_Ico.1 ha).1
    unfold inodeAt at hlow
    omega
  · intro j hj _
    refine ⟨spares_of_field h hi j, ?_⟩
    by_cases hij : j = i
    · exact hij ▸ hftype
    · exact load_of_inode (hchanges.mono (fieldBytes_subset i)) hij (by decide)

theorem sameFile_of_field (h : Stored lossless g m own) (hi : i < g.ninodes) (hj : own j)
    (hchanges : ChangesOnly (fieldBytes i) m m')
    (hftype : oiFtype m' (inodeAt i) = oiFtype m (inodeAt i)) : SameFile m m' j := by
  have hftype' : oiFtype m' (inodeAt j) = oiFtype m (inodeAt j) := by
    by_cases hij : j = i
    · exact hij ▸ hftype
    · exact load_of_inode (hchanges.mono (fieldBytes_subset i)) hij (by decide)
  exact (spares_of_field h hi j).sameFile h hj hchanges hftype' fun off hoff hmem =>
    h.blockAddress_not_mem_inode hi hj hoff (fieldBytes_subset i hmem)

theorem setOiNlink_changesOnly (v : Nat) :
    ChangesOnly (Set.Ico (inodeAt i + 8) (inodeAt i + 12)) m (setOiNlink m (inodeAt i) v) :=
  store32_changesOnly m _ v

theorem setOiNlink_fieldBytes (v : Nat) :
    ChangesOnly (fieldBytes i) m (setOiNlink m (inodeAt i) v) :=
  (setOiNlink_changesOnly v).mono fun a ha => by
    simp only [fieldBytes, Set.mem_Ico] at *
    omega

theorem oiFtype_setOiNlink (v : Nat) :
    oiFtype (setOiNlink m (inodeAt i) v) (inodeAt i) = oiFtype m (inodeAt i) :=
  load32_store32_of_disjoint (by omega)

theorem oiNlink_setOiNlink {v : Nat} (hv : v < 2 ^ 32) :
    oiNlink (setOiNlink m (inodeAt i) v) (inodeAt i) = v :=
  (load32_store32_same m _ v).trans (Nat.mod_eq_of_lt hv)

/-! ## Free inodes -/

/-- What a new inode is filled with. -/
structure Inits (lossless : Prop) (initInode : Memory → Nat → Memory) : Prop where
  changes : ∀ m i, ChangesOnly (inodeBytes i) m (initInode m (inodeAt i))
  nlink : ∀ m i, oiNlink (initInode m (inodeAt i)) (inodeAt i) = 1
  ftype : ∀ m i, oiFtype (initInode m (inodeAt i)) (inodeAt i) ≠ ftypeDir
  file : ∀ m i, oiFtype (initInode m (inodeAt i)) (inodeAt i) ≠ ftypeSymlink →
    oiSize (initInode m (inodeAt i)) (inodeAt i) = 0 ∧
      StoredFile lossless (initInode m (inodeAt i)) i

theorem initReg_eq (m : Memory) (oi mode : Nat) :
    initReg m oi mode =
      setOiDirect (setOiDirect (setOiDirect (setOiDirect (setOiDirect (setOiDirect
        (setOiDirect (setOiDirect (setOiDirect (setOiDirect (setOiIndirect2
          (setOiIndirect (setOiNlink (setOiMode (setOiFtype (setOiSize m oi 0) oi ftypeReg)
            oi mode) oi 1) oi 0) oi 0) oi 0 0) oi 1 0) oi 2 0) oi 3 0) oi 4 0) oi 5 0)
              oi 6 0) oi 7 0) oi 8 0) oi 9 0 := rfl

theorem store32_inode {v n : Nat} (hchanges : ChangesOnly (inodeBytes i) m m')
    (hn : n ≤ 60) : ChangesOnly (inodeBytes i) m (store32 m' (inodeAt i + n) v) :=
  hchanges.trans ((store32_changesOnly m' _ _).mono fun a ha => by
    simp only [inodeBytes, Set.mem_Ico] at *
    omega)

theorem initReg_changesOnly (m : Memory) (i mode : Nat) :
    ChangesOnly (inodeBytes i) m (initReg m (inodeAt i) mode) := by
  rw [initReg_eq]
  simp only [setOiDirect, setOiIndirect, setOiIndirect2, setOiNlink, setOiMode, setOiFtype,
    setOiSize, Nat.add_assoc]
  have hsize : ChangesOnly (inodeBytes i) m (store32 m (inodeAt i) 0) :=
    store32_inode (.refl m) (n := 0) (by decide)
  repeat' first
    | exact hsize
    | refine store32_inode ?_ (by decide)

theorem initReg_fields (m : Memory) (oi mode : Nat) :
    oiSize (initReg m oi mode) oi = 0 ∧ oiFtype (initReg m oi mode) oi = ftypeReg ∧
      oiNlink (initReg m oi mode) oi = 1 ∧ oiIndirect (initReg m oi mode) oi = 0 := by
  rw [initReg_eq]
  simp only [setOiDirect, setOiIndirect, setOiIndirect2, setOiNlink, setOiMode, setOiFtype,
    setOiSize, oiSize, oiFtype, oiNlink, oiIndirect]
  simp (disch := omega) only [load32_store32_of_disjoint, load32_store32_same]
  decide

theorem initReg_direct (m : Memory) (oi mode : Nat) {k : Nat} (hk : k < 10) :
    oiDirect (initReg m oi mode) oi k = 0 := by
  rw [initReg_eq]
  simp only [setOiDirect, oiDirect]
  interval_cases k <;>
    simp (disch := omega) only [load32_store32_of_disjoint, load32_store32_same,
      Nat.zero_mod]

theorem initReg_inits (lossless : Prop) (mode : Nat) :
    Inits lossless fun m oi => initReg m oi mode where
  changes m i := initReg_changesOnly m i mode
  nlink m i := (initReg_fields m (inodeAt i) mode).2.2.1
  ftype m i := by
    rw [(initReg_fields m (inodeAt i) mode).2.1]
    decide
  file m i _ := by
    obtain ⟨hsize, hftype, -, hindirect⟩ := initReg_fields m (inodeAt i) mode
    have hcount : blockCount (initReg m (inodeAt i) mode) i = 0 := by
      rw [blockCount_of_size hsize]
      rfl
    refine ⟨hsize, ?_, ?_, ?_, fun _ => hindirect, ?_, fun _ k hk _ => initReg_direct m _ _ hk⟩
    · rw [hftype]
      decide
    · omega
    · intro k _ hlt
      omega
    · intro _ s huse
      rw [hcount] at huse
      exact absurd huse Slot.not_inUse_zero

theorem initSymlink_changesOnly (m : Memory) (i : Nat) (hlength : symname.length ≤ 51) :
    ChangesOnly (inodeBytes i) m (initSymlink m (inodeAt i) symname) := by
  have hsize : ChangesOnly (inodeBytes i) m (store32 m (inodeAt i) symname.length) :=
    store32_inode (.refl m) (n := 0) (by decide)
  have hfields : ChangesOnly (inodeBytes i) m (setOiFtype (setOiNlink
      (setOiSize m (inodeAt i) symname.length) (inodeAt i) 1) (inodeAt i) ftypeSymlink) :=
    store32_inode (store32_inode hsize (by decide)) (by decide)
  refine (hfields.trans ((copy_changesOnly _ _ _).mono ?_)).trans
    ((copy_changesOnly _ _ _).mono ?_)
  all_goals
    intro a ha
    simp only [inodeBytes, List.length_singleton, Set.mem_Ico] at *
    omega

theorem load_copy_of_disjoint {bytes : List UInt8} {b : Nat}
    (h : b + 4 ≤ a ∨ a + bytes.length ≤ b) : load32 (copy m a bytes) b = load32 m b :=
  (copy_changesOnly m a bytes).load32 fun n hn hmem => by
    simp only [Set.mem_Ico] at hmem
    omega

theorem initSymlink_fields (m : Memory) (oi : Nat) :
    oiSize (initSymlink m oi symname) oi = symname.length % 2 ^ 32 ∧
      oiFtype (initSymlink m oi symname) oi = ftypeSymlink ∧
      oiNlink (initSymlink m oi symname) oi = 1 := by
  simp only [initSymlink, setOiNlink, setOiFtype, setOiSize, oiSize, oiFtype, oiNlink]
  simp (disch := omega) only [load_copy_of_disjoint, load32_store32_of_disjoint,
    load32_store32_same]
  exact ⟨trivial, by decide, by decide⟩

theorem initSymlink_inits (lossless : Prop) (hlength : symname.length ≤ 51) :
    Inits lossless fun m oi => initSymlink m oi symname where
  changes m i := initSymlink_changesOnly m i hlength
  nlink m i := (initSymlink_fields m (inodeAt i)).2.2
  ftype m i := by
    rw [(initSymlink_fields m (inodeAt i)).2.1]
    decide
  file m i hne := absurd (initSymlink_fields m (inodeAt i)).2.1 hne

/-! ## Creating a file -/

theorem findInode_some (hfits : g.Fits m) (h : findInode m = some ino) :
    ino < g.ninodes ∧ oiNlink m (inodeAt ino) = 0 := by
  unfold findInode at h
  have hmem := List.mem_range.1 (List.mem_of_find?_eq_some h)
  have hfree := List.find?_some h
  rw [hfits.firstinob] at hfree
  rw [hfits.ninodes] at hmem
  exact ⟨hmem, of_decide_eq_true hfree⟩

theorem findInode_none (hfits : g.Fits m) :
    findInode m = none ↔ ∀ i < g.ninodes, oiNlink m (inodeAt i) ≠ 0 := by
  unfold findInode
  rw [List.find?_eq_none, hfits.ninodes, hfits.firstinob]
  simp only [List.mem_range, decide_eq_true_eq]
  rfl

/-- A free inode is filled. -/
theorem Stored.init {initInode : Memory → Nat → Memory}
    (h : Stored lossless g m own) (hinit : Inits lossless initInode) (hi : ino < g.ninodes)
    (hfree : ¬ own ino) :
    Stored lossless g (initInode m (inodeAt ino)) fun j => own j ∨
      j = ino ∧ oiFtype (initInode m (inodeAt ino)) (inodeAt ino) ≠ ftypeSymlink := by
  have hchanges := hinit.changes m ino
  refine h.frame hchanges ?_ ?_ ?_ ?_
  · intro a ha
    have hlow := (Set.mem_Ico.1 ha).1
    unfold inodeAt at hlow
    omega
  · intro j hj _
    have hij : j ≠ ino := fun heq => hfree (heq ▸ hj)
    exact ⟨spares_of_inode h hi hij, load_of_inode hchanges hij (by decide)⟩
  · rintro j (hj | ⟨rfl, hne⟩) hj'
    · exact absurd hj hj'
    · obtain ⟨hsize, hfile⟩ := hinit.file m j hne
      refine ⟨hi, ?_, hfile⟩
      rw [blockCount_of_size hsize]
      rfl
  · exact fun _ j hj hj' => absurd (Or.inl hj) hj'

/-- What `ospfs_create` and `ospfs_symlink` do when they do not fail. -/
structure Created (lossless : Prop) (g : Geometry) (d k ino : Nat) (name : Name)
    (initInode : Memory → Nat → Memory) (m m' : Memory) : Prop where
  free : findInode m = some ino
  absent : findDirentry m (inodeAt d) name = none
  made : ∃ m₁, Blank lossless g (owner g m) d k m m₁ ∧
    m' = setOdName (setOdIno (initInode m₁ (inodeAt ino)) (entryAt m₁ d k) ino)
      (entryAt m₁ d k) name

theorem makeEntry_cases (initInode : Memory → Nat → Memory) (newInode : Bool)
    (h : Sound lossless g m) (hd : IsDir g m d)
    (hroom : findDirentry m (inodeAt d) name = none → (findInode m).isSome →
      findOffset m (inodeAt d) (fun od => odIno m od = 0) = none →
      Resizable lossless g (owner g m) m d (oiSize m (inodeAt d) + 128)) :
    (makeEntry m (inodeAt d) name initInode newInode = (some .eexist, m) ∧
        (findDirentry m (inodeAt d) name).isSome) ∨
      (makeEntry m (inodeAt d) name initInode newInode = (some .enospc, m) ∧
        findInode m = none) ∨
      (∃ m', makeEntry m (inodeAt d) name initInode newInode = (some .enospc, m') ∧
        Resized lossless g (owner g m) d m m' ∧
        oiSize m' (inodeAt d) = oiSize m (inodeAt d)) ∨
      ∃ k ino m', makeEntry m (inodeAt d) name initInode newInode =
          (instantiate m' ino newInode, m') ∧
        Created lossless g d k ino name initInode m m' := by
  unfold makeEntry
  cases hfind : findDirentry m (inodeAt d) name with
  | some od => exact .inl ⟨rfl, rfl⟩
  | none =>
      cases hfree : findInode m with
      | none => exact .inr (.inl ⟨rfl, rfl⟩)
      | some ino =>
          rw [h.stored.fits.firstinob]
          rcases createBlankDirentry_cases h.stored hd.owner (h.entrySize d hd)
              (hroom hfind (by rw [hfree]; rfl)) with
            ⟨m₁, hblank, hresized, hsize⟩ | ⟨k, m₁, hblank, hmade⟩
          · refine .inr (.inr (.inl ⟨m₁, ?_, hresized, hsize⟩))
            simp [hblank]
          · refine .inr (.inr (.inr ⟨k, ino, _, ?_, hfree, hfind, m₁, hmade, rfl⟩))
            simp only [Option.isSome_none, Bool.false_eq_true, if_false, hblank]
            rfl

namespace Created

variable {initInode : Memory → Nat → Memory}

/-- The steps of a call that creates a file. -/
structure Stages (lossless : Prop) (g : Geometry) (d k ino : Nat) (name : Name)
    (initInode : Memory → Nat → Memory) (m m₁ m' : Memory) : Prop where
  blank : Blank lossless g (owner g m) d k m m₁
  fresh : ino < g.ninodes ∧ oiNlink m (inodeAt ino) = 0 ∧ ino ≠ 0
  stored : Stored lossless g (initInode m₁ (inodeAt ino)) fun j => owner g m j ∨
      j = ino ∧ oiFtype (initInode m₁ (inodeAt ino)) (inodeAt ino) ≠ ftypeSymlink
  init : ChangesOnly (inodeBytes ino) m₁ (initInode m₁ (inodeAt ino))
  writes : Writes (initInode m₁ (inodeAt ino)) d (Set.Ico (128 * k) (128 * k + 128)) m'
  ino_eq : odIno m' (entryAt m₁ d k) = ino
  name_eq : odName m' (entryAt m₁ d k) = name

theorem stages (hc : Created lossless g d k ino name initInode m m')
    (h : Sound lossless g m) (hd : IsDir g m d) (hinit : Inits lossless initInode)
    (hlength : name.length ≤ 123) (hzero : 0 ∉ name) :
    ∃ m₁, Stages lossless g d k ino name initInode m m₁ m' := by
  obtain ⟨m₁, hblank, rfl⟩ := hc.made
  obtain ⟨hino, hfree⟩ := findInode_some h.stored.fits hc.free
  have hne : ino ≠ 0 := fun heq => h.reserved.1 (heq ▸ hfree)
  have hdi : d ≠ ino := fun heq => hd.2.1 (heq ▸ hfree)
  have hstored := hblank.stored.init hinit hino (fun ho => ho.2.1 hfree)
  have hchanges := hinit.changes m₁ ino
  set m₂ := initInode m₁ (inodeAt ino)
  have hlt : 128 * k + 128 ≤ oiSize m₁ (inodeAt d) := (lt_entryCount_iff hblank.dvd).1 hblank.lt
  have hsize : oiSize m₂ (inodeAt d) = oiSize m₁ (inodeAt d) :=
    load_of_inode hchanges hdi (n := 0) (by decide)
  have hftype : oiFtype m₂ (inodeAt d) = ftypeDir :=
    (load_of_inode hchanges hdi (by decide)).trans
      ((hblank.field h.stored hd.1 (by decide) (by decide)).trans hd.2.2)
  have hentry : entryAt m₂ d k = entryAt m₁ d k :=
    (spares_of_inode hblank.stored hino hdi).address_eq hblank.stored hd.owner hchanges
      (load_of_inode hchanges hdi (by decide)) (by omega)
  have hsmall : ino < 2 ^ 32 := by
    have hgeometry := g.ninodes_le
    have hblocks := g.nblocks_le
    omega
  refine ⟨m₁, hblank, ⟨hino, hfree, hne⟩, hstored, hchanges, ?_, ?_, ?_⟩
  · refine writes_of_entry hstored (.inl hd.owner) hftype (hlt.trans_eq hsize.symm) ?_
    rw [hentry]
    refine ((setOdIno_changesOnly ino).mono ?_).trans ((setOdName_changesOnly hlength).mono ?_)
    all_goals
      intro a ha
      simp only [Set.mem_Ico] at *
      omega
  · rw [odIno_setOdName hlength, odIno_setOdIno hsmall]
  · exact odName_setOdName hlength hzero

namespace Stages

variable {m₁ : Memory}

theorem ne (hs : Stages lossless g d k ino name initInode m m₁ m') (hd : IsDir g m d) :
    d ≠ ino := fun heq => hd.2.1 (heq ▸ hs.fresh.2.1)

/-- Inodes other than the directory and the new one. -/
theorem sameInode (hs : Stages lossless g d k ino name initInode m m₁ m')
    (h : Sound lossless g m) (hd : IsDir g m d) (hj : j < g.ninodes) (hjd : j ≠ d)
    (hji : j ≠ ino) : SameInode m m' j :=
  ((hs.blank.sameInode h.stored hj hjd).trans (sameInode_of_inode hji hs.init)).trans
    (hs.writes.sameInode hs.stored (.inl hd.owner) hj)

theorem sameFile (hs : Stages lossless g d k ino name initInode m m₁ m')
    (h : Sound lossless g m) (hd : IsDir g m d) (hj : owner g m j) (hjd : j ≠ d) :
    SameFile m m' j := by
  have hji : j ≠ ino := fun heq => hj.2.1 (heq ▸ hs.fresh.2.1)
  exact ((hs.blank.sameFile h.stored hd.1 hj hjd).trans
    (sameFile_of_inode hs.blank.stored hs.fresh.1 hj hji hs.init)).trans
      (hs.writes.sameFile hs.stored (.inl hd.owner) (.inl hj) hjd)

theorem field (hs : Stages lossless g d k ino name initInode m m₁ m')
    (h : Sound lossless g m) (hd : IsDir g m d) (hj : j < g.ninodes) (hji : j ≠ ino) {n : Nat}
    (hn : 4 ≤ n) (hn' : n ≤ 12) : load32 m' (inodeAt j + n) = load32 m (inodeAt j + n) :=
  (hs.writes.load hs.stored (.inl hd.owner) hj (by omega)).trans
    ((load_of_inode hs.init hji (by omega)).trans (hs.blank.field h.stored hj hn hn'))

theorem newField (hs : Stages lossless g d k ino name initInode m m₁ m') (hd : IsDir g m d)
    {n : Nat} (hn : n ≤ 60) :
    load32 m' (inodeAt ino + n) = load32 (initInode m₁ (inodeAt ino)) (inodeAt ino + n) :=
  hs.writes.load hs.stored (.inl hd.owner) hs.fresh.1 hn

theorem isDir_iff (hs : Stages lossless g d k ino name initInode m m₁ m')
    (h : Sound lossless g m) (hd : IsDir g m d) (hinit : Inits lossless initInode) :
    IsDir g m' j ↔ IsDir g m j := by
  refine and_congr_right fun hj => ?_
  by_cases hji : j = ino
  · subst hji
    have hftype : oiFtype m' (inodeAt j) ≠ ftypeDir := by
      rw [show oiFtype m' (inodeAt j) = _ from hs.newField hd (by decide)]
      exact hinit.ftype m₁ j
    exact ⟨fun hdir => absurd hdir.2 hftype, fun hdir => absurd hs.fresh.2.1 hdir.1⟩
  · rw [show oiNlink m' (inodeAt j) = _ from hs.field h hd hj hji (by decide) (by decide),
      show oiFtype m' (inodeAt j) = _ from hs.field h hd hj hji (by decide) (by decide)]
    rfl

theorem owner_eq (hs : Stages lossless g d k ino name initInode m m₁ m')
    (h : Sound lossless g m) (hd : IsDir g m d) (hinit : Inits lossless initInode) :
    owner g m' = fun j => owner g m j ∨
      j = ino ∧ oiFtype (initInode m₁ (inodeAt ino)) (inodeAt ino) ≠ ftypeSymlink := by
  funext j
  refine propext ?_
  by_cases hji : j = ino
  · subst hji
    have hdead : ¬ owner g m j := fun ho => ho.2.1 hs.fresh.2.1
    have hlink : oiNlink m' (inodeAt j) = 1 :=
      (hs.newField hd (by decide)).trans (hinit.nlink m₁ j)
    simp only [hdead, false_or, true_and]
    simp only [owner, hs.fresh.1, hlink, true_and, ne_eq, one_ne_zero, not_false_eq_true]
    rw [show oiFtype m' (inodeAt j) = _ from hs.newField hd (by decide)]
    rfl
  · simp only [hji, false_and, or_false]
    refine and_congr_right fun hj => ?_
    rw [show oiNlink m' (inodeAt j) = _ from hs.field h hd hj hji (by decide) (by decide),
      show oiFtype m' (inodeAt j) = _ from hs.field h hd hj hji (by decide) (by decide)]
    rfl

theorem size_dir (hs : Stages lossless g d k ino name initInode m m₁ m') (hd : IsDir g m d) :
    oiSize m' (inodeAt d) = oiSize m₁ (inodeAt d) :=
  (hs.writes.load hs.stored (.inl hd.owner) hd.1 (k := 0) (by decide)).trans
    (load_of_inode hs.init (hs.ne hd) (n := 0) (by decide))

theorem isDir_iff₁ (hs : Stages lossless g d k ino name initInode m m₁ m')
    (h : Sound lossless g m) : IsDir g m₁ j ↔ IsDir g m j :=
  isDir_congr (fun _ hj => hs.blank.field h.stored hj (by decide) (by decide))
    fun _ hj => hs.blank.field h.stored hj (by decide) (by decide)

theorem entrySize₁ (hs : Stages lossless g d k ino name initInode m m₁ m')
    (h : Sound lossless g m) (hj : IsDir g m j) : 128 ∣ oiSize m₁ (inodeAt j) := by
  by_cases hjd : j = d
  · exact hjd ▸ hs.blank.dvd
  · rw [show oiSize m₁ (inodeAt j) = _ from
      hs.blank.load h.stored hj.1 hjd (k := 0) (by decide)]
    exact h.entrySize j hj

theorem not_isDir₁ (hs : Stages lossless g d k ino name initInode m m₁ m')
    (h : Sound lossless g m) : ¬ IsDir g m₁ ino := fun hdir =>
  ((hs.isDir_iff₁ h).1 hdir).2.1 hs.fresh.2.1

/-- The table before the entry is written. -/
theorem slot_init (hs : Stages lossless g d k ino name initInode m m₁ m')
    (h : Sound lossless g m) (hinit : Inits lossless initInode) (p : Nat × Nat) :
    slot g (initInode m₁ (inodeAt ino)) p = slot g m₁ p :=
  slot_eq_of_inode hs.blank.stored hs.fresh.1
    (fun _ hdir => ((hs.isDir_iff₁ h).1 hdir).owner)
    (fun _ hdir => hs.entrySize₁ h ((hs.isDir_iff₁ h).1 hdir)) hs.init (hs.not_isDir₁ h)
    fun hdir => hinit.ftype m₁ ino hdir.2.2

theorem entry_eq (hs : Stages lossless g d k ino name initInode m m₁ m')
    (hd : IsDir g m d) : entryAt m' d k = entryAt m₁ d k := by
  have hlt := (lt_entryCount_iff hs.blank.dvd).1 hs.blank.lt
  have hsize : oiSize (initInode m₁ (inodeAt ino)) (inodeAt d) = oiSize m₁ (inodeAt d) :=
    load_of_inode hs.init (hs.ne hd) (n := 0) (by decide)
  refine (hs.writes.address hs.stored (.inl hd.owner) (.inl hd.owner) (by omega)).trans ?_
  exact (spares_of_inode hs.blank.stored hs.fresh.1 (hs.ne hd)).address_eq hs.blank.stored
    hd.owner hs.init (load_of_inode hs.init (hs.ne hd) (by decide)) (by omega)

theorem put (hs : Stages lossless g d k ino name initInode m m₁ m') (h : Sound lossless g m)
    (hd : IsDir g m d) (hinit : Inits lossless initInode) : Put g m m' (d, k) ino name where
  here := by
    have hk : k < entryCount m' (inodeAt d) := by
      simp only [entryCount, hs.size_dir hd]
      exact hs.blank.lt
    rw [slot_eq_some ((hs.isDir_iff h hd hinit).2 hd) hk, hs.entry_eq hd, hs.ino_eq,
      hs.name_eq]
  others := by
    rintro ⟨e, n⟩ hne
    have hdirs : ∀ j, IsDir g (initInode m₁ (inodeAt ino)) j → IsDir g m j ∧ j ≠ ino := by
      rintro j ⟨hj, hlink, hftype⟩
      have hji : j ≠ ino := fun heq => hinit.ftype m₁ ino (heq ▸ hftype)
      rw [show oiNlink _ (inodeAt j) = _ from load_of_inode hs.init hji (by decide)] at hlink
      rw [show oiFtype _ (inodeAt j) = _ from load_of_inode hs.init hji (by decide)] at hftype
      exact ⟨(hs.isDir_iff₁ h).1 ⟨hj, hlink, hftype⟩, hji⟩
    have hsize : ∀ j, IsDir g (initInode m₁ (inodeAt ino)) j →
        128 ∣ oiSize (initInode m₁ (inodeAt ino)) (inodeAt j) := by
      intro j hj
      obtain ⟨hdir, hji⟩ := hdirs j hj
      rw [show oiSize _ (inodeAt j) = _ from load_of_inode hs.init hji (n := 0) (by decide)]
      exact hs.entrySize₁ h hdir
    have hwrite := hs.writes.slot_eq (d := e) (k := n) hs.stored (.inl hd.owner)
      (fun j hj => .inl (hdirs j hj).1.owner) hsize fun heq off hoff => by
        have hnk : n ≠ k := fun heq' => hne (by rw [heq, heq'])
        simp only [Set.mem_Ico] at hoff
        omega
    rw [hwrite, hs.slot_init h hinit,
      hs.blank.slot_of_ne h.stored (fun _ hdir => hdir.owner) h.entrySize hd hne]

/-- Creating a file keeps the invariant. -/
theorem sound (hs : Stages lossless g d k ino name initInode m m₁ m')
    (h : Sound lossless g m) (hd : IsDir g m d) (hinit : Inits lossless initInode) :
    Sound lossless g m' where
  stored := by
    rw [hs.owner_eq h hd hinit]
    exact hs.writes.stored hs.stored (.inl hd.owner)
  entrySize j hj := by
    have hdir := (hs.isDir_iff h hd hinit).1 hj
    by_cases hjd : j = d
    · subst hjd
      rw [hs.size_dir hd]
      exact hs.blank.dvd
    · rw [(hs.sameFile h hd hdir.owner hjd).size]
      exact h.entrySize j hdir
  reserved := by
    have hzero : 0 < g.ninodes := by have := hd.1; omega
    rw [show oiNlink m' (inodeAt 0) = _ from
        hs.field h hd hzero hs.fresh.2.2.symm (by decide) (by decide),
      show oiFtype m' (inodeAt 0) = _ from
        hs.field h hd hzero hs.fresh.2.2.symm (by decide) (by decide)]
    exact h.reserved
  named := (hs.put h hd hinit).named hs.fresh.1 h.named
  links i hpos hi hdir := by
    have hput := hs.put h hd hinit
    have hnot := hs.blank.not_mem_entries hpos
    have hdir' : ¬ IsDir g m i := fun hdi => hdir ((hs.isDir_iff h hd hinit).2 hdi)
    by_cases hii : i = ino
    · subst hii
      have hempty := h.links i hpos hi hdir'
      rw [hs.fresh.2.1] at hempty
      rw [hput.entries_self, Set.ncard_insert_of_notMem hnot (entries_finite h.stored i),
        ← hempty]
      exact (hs.newField hd (by decide)).trans (hinit.nlink m₁ i)
    · rw [hput.entries_of_ne hii, Set.sdiff_singleton_eq_self hnot,
        show oiNlink m' (inodeAt i) = _ from hs.field h hd hi hii (by decide) (by decide)]
      exact h.links i hpos hi hdir'

end Stages

end Created

end Cs111Labs.Ospfs
