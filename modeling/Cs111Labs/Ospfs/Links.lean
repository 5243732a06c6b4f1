import Cs111Labs.Ospfs.NewEntries

/-!
# Linking a file

`ospfs_link` fills a free place of a directory and counts the link.
-/

namespace Cs111Labs.Ospfs

open Foundation Memory

variable {lossless : Prop} {g : Geometry} {m m' m'' : Memory} {own own' : Nat → Prop}
  {a d i j k ino od src : Nat} {name : Name} {S R : Set Nat}

/-! ## Linking a file -/

/-- What `ospfs_link` does when it does not fail. -/
structure Linked (lossless : Prop) (g : Geometry) (d k src : Nat) (name : Name)
    (m m₁ m₂ m' : Memory) : Prop where
  absent : findDirentry m (inodeAt d) name = none
  blank : Blank lossless g (owner g m) d k m m₁
  entry : m₂ = setOdIno (setOdName m₁ (entryAt m₁ d k) name) (entryAt m₁ d k) src
  counted : m' = setOiNlink m₂ (inodeAt src) (oiNlink m₂ (inodeAt src) + 1)

theorem ospfsLink_cases (name : List UInt8) (h : Sound lossless g m)
    (hd : IsDir g m d) (hsrc : src < g.ninodes)
    (hroom : name.length ≤ 123 → findDirentry m (inodeAt d) name = none →
      findOffset m (inodeAt d) (fun od => odIno m od = 0) = none →
      Resizable lossless g (owner g m) m d (oiSize m (inodeAt d) + 128)) :
    (ospfsLink m src d name = (some .enametoolong, m) ∧ 123 < name.length) ∨
      (ospfsLink m src d name = (some .eexist, m) ∧ name.length ≤ 123 ∧
        (findDirentry m (inodeAt d) name).isSome) ∨
      (∃ m', ospfsLink m src d name = (some .enospc, m') ∧ name.length ≤ 123 ∧
        Resized lossless g (owner g m) d m m' ∧
        oiSize m' (inodeAt d) = oiSize m (inodeAt d)) ∨
      ∃ k m₁ m₂ m', ospfsLink m src d name = (none, m') ∧ name.length ≤ 123 ∧
        Linked lossless g d k src name m m₁ m₂ m' := by
  unfold ospfsLink
  rw [h.stored.fits.ospfsInode hd.1]
  by_cases hlength : name.length > 123
  · exact .inl ⟨if_pos hlength, hlength⟩
  · simp only [if_neg hlength]
    have hshort : name.length ≤ 123 := by omega
    cases hfind : findDirentry m (inodeAt d) name with
    | some od => exact .inr (.inl ⟨rfl, hshort, rfl⟩)
    | none =>
        rcases createBlankDirentry_cases h.stored hd.owner (h.entrySize d hd)
            (hroom hshort hfind) with
          ⟨m₁, hblank, hresized, hsize⟩ | ⟨k, m₁, hblank, hmade⟩
        · refine .inr (.inr (.inl ⟨m₁, ?_, hshort, hresized, hsize⟩))
          simp [hblank]
        · refine .inr (.inr (.inr ⟨k, m₁, _, _, ?_, hshort, hfind, hmade, rfl, rfl⟩))
          have hchanges : ChangesOnly (Set.Ico (entryAt m₁ d k) (entryAt m₁ d k + 128)) m₁
              (setOdIno (setOdName m₁ (entryAt m₁ d k) name) (entryAt m₁ d k) src) := by
            refine ((setOdName_changesOnly hshort).mono ?_).trans
              ((setOdIno_changesOnly src).mono ?_)
            all_goals
              intro a ha
              simp only [Set.mem_Ico] at *
              omega
          have hlt := (lt_entryCount_iff hmade.dvd).1 hmade.lt
          have hftype : oiFtype m₁ (inodeAt d) = ftypeDir :=
            (hmade.field h.stored hd.1 (by decide) (by decide)).trans hd.2.2
          have hwrites := writes_of_entry hmade.stored hd.owner hftype hlt hchanges
          have hfits := (hwrites.stored hmade.stored hd.owner).fits
          simp only [Option.isSome_none, Bool.false_eq_true, if_false, hblank,
            hfits.ospfsInode hsrc]

namespace Linked

variable {m₁ m₂ : Memory}

theorem writes (hl : Linked lossless g d k src name m m₁ m₂ m') (h : Sound lossless g m)
    (hd : IsDir g m d) (hlength : name.length ≤ 123) :
    Writes m₁ d (Set.Ico (128 * k) (128 * k + 128)) m₂ := by
  have hlt := (lt_entryCount_iff hl.blank.dvd).1 hl.blank.lt
  have hftype : oiFtype m₁ (inodeAt d) = ftypeDir :=
    (hl.blank.field h.stored hd.1 (by decide) (by decide)).trans hd.2.2
  refine writes_of_entry hl.blank.stored hd.owner hftype hlt ?_
  rw [hl.entry]
  refine ((setOdName_changesOnly hlength).mono ?_).trans ((setOdIno_changesOnly src).mono ?_)
  all_goals
    intro a ha
    simp only [Set.mem_Ico] at *
    omega

theorem field₂ (hl : Linked lossless g d k src name m m₁ m₂ m') (h : Sound lossless g m)
    (hd : IsDir g m d) (hlength : name.length ≤ 123) (hj : j < g.ninodes) {n : Nat}
    (hn : 4 ≤ n) (hn' : n ≤ 12) : load32 m₂ (inodeAt j + n) = load32 m (inodeAt j + n) :=
  ((hl.writes h hd hlength).load hl.blank.stored hd.owner hj (by omega)).trans
    (hl.blank.field h.stored hj hn hn')

theorem size₂ (hl : Linked lossless g d k src name m m₁ m₂ m') (h : Sound lossless g m)
    (hd : IsDir g m d) (hlength : name.length ≤ 123) (hj : j < g.ninodes) :
    oiSize m₂ (inodeAt j) = oiSize m₁ (inodeAt j) :=
  (hl.writes h hd hlength).load hl.blank.stored hd.owner hj (k := 0) (by decide)

theorem changes (hl : Linked lossless g d k src name m m₁ m₂ m') :
    ChangesOnly (fieldBytes src) m₂ m' := by
  rw [hl.counted]
  exact setOiNlink_fieldBytes _

theorem ftype_src (hl : Linked lossless g d k src name m m₁ m₂ m') :
    oiFtype m' (inodeAt src) = oiFtype m₂ (inodeAt src) := by
  rw [hl.counted]
  exact oiFtype_setOiNlink _

theorem ftype (hl : Linked lossless g d k src name m m₁ m₂ m') (h : Sound lossless g m)
    (hd : IsDir g m d) (hlength : name.length ≤ 123) (hj : j < g.ninodes) :
    oiFtype m' (inodeAt j) = oiFtype m (inodeAt j) := by
  refine Eq.trans ?_ (hl.field₂ h hd hlength hj (n := 4) (by decide) (by decide))
  by_cases hjs : j = src
  · exact hjs ▸ hl.ftype_src
  · exact load_of_inode (hl.changes.mono (fieldBytes_subset src)) hjs (by decide)

theorem nlink_of_ne (hl : Linked lossless g d k src name m m₁ m₂ m')
    (h : Sound lossless g m) (hd : IsDir g m d) (hlength : name.length ≤ 123)
    (hj : j < g.ninodes) (hjs : j ≠ src) :
    oiNlink m' (inodeAt j) = oiNlink m (inodeAt j) :=
  (load_of_inode (hl.changes.mono (fieldBytes_subset src)) hjs (by decide)).trans
    (hl.field₂ h hd hlength hj (by decide) (by decide))

/-- The link count does not overflow. -/
theorem nlink_src (hl : Linked lossless g d k src name m m₁ m₂ m') (h : Sound lossless g m)
    (hd : IsDir g m d) (hlength : name.length ≤ 123) (hpos : 0 < src)
    (hsrc : src < g.ninodes) (hdir : oiFtype m (inodeAt src) ≠ ftypeDir) :
    oiNlink m' (inodeAt src) = oiNlink m (inodeAt src) + 1 := by
  have hlinks := h.links src hpos hsrc fun hs => hdir hs.2.2
  have hle := ncard_entries_le h.stored h.entrySize src
  have hsame : oiNlink m₂ (inodeAt src) = oiNlink m (inodeAt src) :=
    hl.field₂ h hd hlength hsrc (by decide) (by decide)
  rw [hl.counted, hsame]
  exact oiNlink_setOiNlink (by omega)

theorem isDir_iff (hl : Linked lossless g d k src name m m₁ m₂ m') (h : Sound lossless g m)
    (hd : IsDir g m d) (hlength : name.length ≤ 123)
    (hdir : oiFtype m (inodeAt src) ≠ ftypeDir) : IsDir g m' j ↔ IsDir g m j := by
  refine and_congr_right fun hj => ?_
  rw [hl.ftype h hd hlength hj]
  by_cases hjs : j = src
  · subst hjs
    exact ⟨fun hs => absurd hs.2 hdir, fun hs => absurd hs.2 hdir⟩
  · rw [hl.nlink_of_ne h hd hlength hj hjs]

theorem owner_eq (hl : Linked lossless g d k src name m m₁ m₂ m') (h : Sound lossless g m)
    (hd : IsDir g m d) (hlength : name.length ≤ 123) (hpos : 0 < src)
    (hsrc : src < g.ninodes) (hdir : oiFtype m (inodeAt src) ≠ ftypeDir)
    (hlive : oiNlink m (inodeAt src) ≠ 0) : owner g m' = owner g m := by
  funext j
  refine propext (and_congr_right fun hj => ?_)
  rw [hl.ftype h hd hlength hj]
  by_cases hjs : j = src
  · subst hjs
    rw [hl.nlink_src h hd hlength hpos hsrc hdir]
    exact and_congr_left fun _ => ⟨fun _ => hlive, fun _ => Nat.succ_ne_zero _⟩
  · rw [hl.nlink_of_ne h hd hlength hj hjs]

theorem stored (hl : Linked lossless g d k src name m m₁ m₂ m') (h : Sound lossless g m)
    (hd : IsDir g m d) (hlength : name.length ≤ 123) (hsrc : src < g.ninodes) :
    Stored lossless g m' (owner g m) :=
  ((hl.writes h hd hlength).stored hl.blank.stored hd.owner).field hsrc hl.changes
    hl.ftype_src

theorem sameFile (hl : Linked lossless g d k src name m m₁ m₂ m') (h : Sound lossless g m)
    (hd : IsDir g m d) (hlength : name.length ≤ 123) (hsrc : src < g.ninodes)
    (hj : owner g m j) (hjd : j ≠ d) : SameFile m m' j :=
  ((hl.blank.sameFile h.stored hd.1 hj hjd).trans
    ((hl.writes h hd hlength).sameFile hl.blank.stored hd.owner hj hjd)).trans
      (sameFile_of_field ((hl.writes h hd hlength).stored hl.blank.stored hd.owner) hsrc hj
        hl.changes hl.ftype_src)

theorem size_dir (hl : Linked lossless g d k src name m m₁ m₂ m') (h : Sound lossless g m)
    (hd : IsDir g m d) (hlength : name.length ≤ 123)
    (hdir : oiFtype m (inodeAt src) ≠ ftypeDir) :
    oiSize m' (inodeAt d) = oiSize m₁ (inodeAt d) := by
  have hds : d ≠ src := fun heq => hdir (heq ▸ hd.2.2)
  exact (load_of_inode (hl.changes.mono (fieldBytes_subset src)) hds (n := 0)
    (by decide)).trans (hl.size₂ h hd hlength hd.1)

theorem entrySize (hl : Linked lossless g d k src name m m₁ m₂ m') (h : Sound lossless g m)
    (hj : IsDir g m j) : 128 ∣ oiSize m₁ (inodeAt j) := by
  by_cases hjd : j = d
  · exact hjd ▸ hl.blank.dvd
  · rw [show oiSize m₁ (inodeAt j) = _ from
      hl.blank.load h.stored hj.1 hjd (k := 0) (by decide)]
    exact h.entrySize j hj

theorem put (hl : Linked lossless g d k src name m m₁ m₂ m') (h : Sound lossless g m)
    (hd : IsDir g m d) (hlength : name.length ≤ 123) (hzero : 0 ∉ name)
    (hsrc : src < g.ninodes) (hdir : oiFtype m (inodeAt src) ≠ ftypeDir) :
    Put g m m' (d, k) src name := by
  have hdirs₁ : ∀ {j}, IsDir g m₁ j ↔ IsDir g m j :=
    isDir_congr (fun _ hj => hl.blank.field h.stored hj (by decide) (by decide))
      fun _ hj => hl.blank.field h.stored hj (by decide) (by decide)
  have hdirs₂ : ∀ {j}, IsDir g m₂ j ↔ IsDir g m j :=
    isDir_congr (fun _ hj => hl.field₂ h hd hlength hj (by decide) (by decide))
      fun _ hj => hl.field₂ h hd hlength hj (by decide) (by decide)
  have hwrites := hl.writes h hd hlength
  have hstored₂ := hwrites.stored hl.blank.stored hd.owner
  have hlast : ∀ p, slot g m' p = slot g m₂ p := fun p =>
    slot_eq_of_inode hstored₂ hsrc (fun _ hdj => (hdirs₂.1 hdj).owner)
      (fun j hdj => by
        rw [hl.size₂ h hd hlength hdj.1]
        exact hl.entrySize h (hdirs₂.1 hdj))
      (hl.changes.mono (fieldBytes_subset src)) (fun hs => hdir (hdirs₂.1 hs).2.2)
      fun hs => hdir ((hl.isDir_iff h hd hlength hdir).1 hs).2.2
  constructor
  · have hsmall : src < 2 ^ 32 := by
      have hgeometry := g.ninodes_le
      have hblocks := g.nblocks_le
      omega
    have hlt := (lt_entryCount_iff hl.blank.dvd).1 hl.blank.lt
    have hk : k < entryCount m₂ (inodeAt d) := by
      simp only [entryCount, hl.size₂ h hd hlength hd.1]
      exact hl.blank.lt
    have hentry : entryAt m₂ d k = entryAt m₁ d k :=
      hwrites.address hl.blank.stored hd.owner hd.owner (by omega)
    rw [hlast, slot_eq_some (hdirs₂.2 hd) hk, hentry, hl.entry, odIno_setOdIno hsmall,
      odName_setOdIno, odName_setOdName hlength hzero]
  · rintro ⟨e, n⟩ hne
    rw [hlast, hwrites.slot_eq (d := e) (k := n) hl.blank.stored hd.owner
      (fun _ hdj => (hdirs₁.1 hdj).owner) (fun _ hdj => hl.entrySize h (hdirs₁.1 hdj))
      fun heq off hoff => by
        have hnk : n ≠ k := fun heq' => hne (by rw [heq, heq'])
        simp only [Set.mem_Ico] at hoff
        omega]
    exact hl.blank.slot_of_ne h.stored (fun _ hdj => hdj.owner) h.entrySize hd hne

/-- Linking keeps the invariant. -/
theorem sound (hl : Linked lossless g d k src name m m₁ m₂ m') (h : Sound lossless g m)
    (hd : IsDir g m d) (hlength : name.length ≤ 123) (hzero : 0 ∉ name) (hpos : 0 < src)
    (hsrc : src < g.ninodes) (hdir : oiFtype m (inodeAt src) ≠ ftypeDir)
    (hlive : oiNlink m (inodeAt src) ≠ 0) : Sound lossless g m' where
  stored := by
    rw [hl.owner_eq h hd hlength hpos hsrc hdir hlive]
    exact hl.stored h hd hlength hsrc
  entrySize j hj := by
    have hdj := (hl.isDir_iff h hd hlength hdir).1 hj
    by_cases hjd : j = d
    · subst hjd
      rw [hl.size_dir h hd hlength hdir]
      exact hl.blank.dvd
    · rw [(hl.sameFile h hd hlength hsrc hdj.owner hjd).size]
      exact h.entrySize j hdj
  reserved := by
    have hzero : 0 < g.ninodes := by omega
    rw [hl.nlink_of_ne h hd hlength hzero (by omega), hl.ftype h hd hlength hzero]
    exact h.reserved
  named := (hl.put h hd hlength hzero hsrc hdir).named hsrc h.named
  links i hi hlt hnot := by
    have hput := hl.put h hd hlength hzero hsrc hdir
    have hnew := hl.blank.not_mem_entries hi
    have hold := h.links i hi hlt fun hdi =>
      hnot ((hl.isDir_iff h hd hlength hdir).2 hdi)
    by_cases his : i = src
    · subst his
      rw [hput.entries_self, Set.ncard_insert_of_notMem hnew (entries_finite h.stored i),
        hl.nlink_src h hd hlength hpos hsrc hdir, hold]
    · rw [hput.entries_of_ne his, Set.sdiff_singleton_eq_self hnew,
        hl.nlink_of_ne h hd hlength hlt his, hold]

end Linked

end Cs111Labs.Ospfs
