import Cs111Labs.Ospfs.Entries

/-!
# Changes of the table of directory entries

Every change that an operation makes is a resized file, a write to the bytes of
one file or a write to one inode.  This module says what each of them does to
the table.
-/

namespace Cs111Labs.Ospfs

open Foundation Memory

variable {lossless : Prop} {g : Geometry} {m m' m'' : Memory} {own own' : Nat → Prop}
  {a d i j k ino od : Nat} {name : Name} {S R : Set Nat}

/-! ## Searching a directory -/

theorem findOffset_some {oi off : Nat} {stop : Nat → Bool}
    (h : findOffset m oi stop = some off) :
    ∃ k < entryCount m oi, off = 128 * k ∧ stop (ospfsInodeData m oi (128 * k)) = true := by
  have hstop := List.find?_some h
  obtain ⟨k, hk, rfl⟩ := List.mem_map.1 (List.mem_of_find?_eq_some h)
  exact ⟨k, List.mem_range.1 hk, rfl, hstop⟩

theorem findOffset_none {oi : Nat} {stop : Nat → Bool} :
    findOffset m oi stop = none ↔
      ∀ k < entryCount m oi, stop (ospfsInodeData m oi (128 * k)) = false := by
  unfold findOffset
  rw [List.find?_eq_none]
  simp only [List.mem_map, List.mem_range, Bool.not_eq_true, forall_exists_index, and_imp,
    forall_apply_eq_imp_iff₂]

/-! ## One entry -/

theorem setOdName_changesOnly (hlength : name.length ≤ 123) :
    ChangesOnly (Set.Ico (od + 4) (od + 128)) m (setOdName m od name) := by
  refine ((copy_changesOnly m _ _).mono ?_).trans ((copy_changesOnly _ _ _).mono ?_)
  all_goals
    intro a ha
    simp only [List.length_singleton, Set.mem_Ico] at *
    omega

theorem setOdIno_changesOnly (v : Nat) :
    ChangesOnly (Set.Ico od (od + 4)) m (setOdIno m od v) := store32_changesOnly m od v

@[simp] theorem odIno_setOdIno {v : Nat} (hv : v < 2 ^ 32) :
    odIno (setOdIno m od v) od = v :=
  (load32_store32_same m od v).trans (Nat.mod_eq_of_lt hv)

@[simp] theorem odIno_setOdName (hlength : name.length ≤ 123) :
    odIno (setOdName m od name) od = odIno m od :=
  (setOdName_changesOnly hlength).load32 fun n hn hmem => by
    simp only [Set.mem_Ico] at hmem
    omega

@[simp] theorem odName_setOdIno (v : Nat) : odName (setOdIno m od v) od = odName m od :=
  (setOdIno_changesOnly v).cstring fun n hn hmem => by
    simp only [Set.mem_Ico] at hmem
    omega

@[simp] theorem odName_setOdName (hlength : name.length ≤ 123) (hzero : 0 ∉ name) :
    odName (setOdName m od name) od = name := by
  refine cstring_eq (by omega) hzero ?_ ?_
  · intro n hn
    have hsecond : ¬ (od + 4 + name.length ≤ od + 4 + n ∧
        od + 4 + n < od + 4 + name.length + [(0 : UInt8)].length) := by omega
    have hfirst : od + 4 ≤ od + 4 + n ∧ od + 4 + n < od + 4 + name.length := by omega
    simp only [setOdName, copy, if_neg hsecond, if_pos hfirst, Nat.add_sub_cancel_left]
    exact List.getD_eq_getElem _ _ hn
  · have hfirst : od + 4 + name.length ≤ od + 4 + name.length ∧
        od + 4 + name.length < od + 4 + name.length + [(0 : UInt8)].length := by simp
    simp only [setOdName, copy, if_pos hfirst, Nat.sub_self]
    rfl

/-- The bytes of an entry are bytes of its directory. -/
theorem writes_of_entry (h : Stored lossless g m own) (hown : own d)
    (hd : oiFtype m (inodeAt d) = ftypeDir) (hk : 128 * k + 128 ≤ oiSize m (inodeAt d))
    (hchanges : ChangesOnly (Set.Ico (entryAt m d k) (entryAt m d k + 128)) m m') :
    Writes m d (Set.Ico (128 * k) (128 * k + 128)) m' where
  changes := hchanges.mono fun a ha => by
    obtain ⟨hlo, hhi⟩ := Set.mem_Ico.1 ha
    refine ⟨128 * k + (a - entryAt m d k), ?_, ?_⟩
    · simp only [Set.mem_Ico]
      omega
    · rw [address_add (by omega) (by omega)]
      omega
  size off hoff := by
    have hlast := (Set.mem_Ico.1 hoff).2
    omega
  block off hoff := by
    have hlast := (Set.mem_Ico.1 hoff).2
    exact h.dir_blockno hown hd (by omega)

/-! ## The three kinds of changes -/

theorem Writes.slot_eq (hw : Writes m i R m') (h : Stored lossless g m own) (hown : own i)
    (hdirs : ∀ d, IsDir g m d → own d)
    (hsize : ∀ d, IsDir g m d → 128 ∣ oiSize m (inodeAt d))
    (hout : d = i → ∀ off ∈ R, off < 128 * k ∨ 128 * k + 128 ≤ off) :
    slot g m' (d, k) = slot g m (d, k) := by
  have hfield : ∀ j < g.ninodes, ∀ n ≤ 60,
      load32 m' (inodeAt j + n) = load32 m (inodeAt j + n) :=
    fun j hj n hn => hw.load h hown hj hn
  have hsame : IsDir g m d → oiSize m' (inodeAt d) = oiSize m (inodeAt d) :=
    fun hd => hfield d hd.1 0 (by decide)
  refine slot_congr (isDir_congr (fun j hj => hfield j hj 8 (by decide))
    fun j hj => hfield j hj 4 (by decide)) (hsize d) ?_ ?_ ?_
  · intro hd
    rw [hsame hd]
    exact hsize d hd
  · intro hd
    simp only [entryCount, hsame hd]
  · intro hd off hoff _ hlo hhi
    refine hw.content h hown (hdirs d hd) hoff fun hdi hmem => ?_
    have hmiss := hout hdi off hmem
    omega

theorem Resized.slot_eq (hr : Resized lossless g own i m m') (h : Stored lossless g m own)
    (hi : i < g.ninodes) (hdirs : ∀ d, IsDir g m d → own d)
    (hsize : ∀ d, IsDir g m d → 128 ∣ oiSize m (inodeAt d))
    (hsize' : IsDir g m i → 128 ∣ oiSize m' (inodeAt i))
    (hcount : d = i → IsDir g m i →
      (k < entryCount m' (inodeAt i) ↔ k < entryCount m (inodeAt i))) :
    slot g m' (d, k) = slot g m (d, k) := by
  have hsame : IsDir g m d → d ≠ i → oiSize m' (inodeAt d) = oiSize m (inodeAt d) :=
    fun hd hdi => hr.load h hd.1 hdi (k := 0) (by decide)
  refine slot_congr (isDir_congr (fun j hj => hr.field h hj (by decide) (by decide))
    fun j hj => hr.field h hj (by decide) (by decide)) (hsize d) ?_ ?_ ?_
  · intro hd
    by_cases hdi : d = i
    · subst hdi
      exact hsize' hd
    · rw [hsame hd hdi]
      exact hsize d hd
  · intro hd
    by_cases hdi : d = i
    · subst hdi
      exact hcount rfl hd
    · simp only [entryCount, hsame hd hdi]
  · exact fun hd off hoff hoff' _ _ => hr.content h hi (hdirs d hd) hoff hoff'

theorem spares_of_inode (h : Stored lossless g m own) (hi : i < g.ninodes)
    (hij : j ≠ i) : Spares m own (inodeBytes i) j where
  inode _ ha hpointer := not_mem_inodeBytes_of_ne hij (pointerBytes_subset j hpointer) ha
  blocks _ b _ howns _ ha :=
    not_mem_blockBytes_of_inode (h.safe.held_mem _ b howns : g.IsData b) hi ha

theorem load_of_inode (hchanges : ChangesOnly (inodeBytes i) m m') (hij : j ≠ i) {n : Nat}
    (hn : n ≤ 60) : load32 m' (inodeAt j + n) = load32 m (inodeAt j + n) :=
  hchanges.load32 fun c hc hmem => not_mem_inodeBytes_of_ne hij
    (by simp only [inodeBytes, Set.mem_Ico]; omega) hmem

theorem sameFile_of_inode (h : Stored lossless g m own) (hi : i < g.ninodes) (hj : own j)
    (hij : j ≠ i) (hchanges : ChangesOnly (inodeBytes i) m m') : SameFile m m' j :=
  (spares_of_inode h hi hij).sameFile h hj hchanges (load_of_inode hchanges hij (by decide))
    fun _ hoff => h.blockAddress_not_mem_inode hi hj hoff

theorem slot_eq_of_inode (h : Stored lossless g m own) (hi : i < g.ninodes)
    (hdirs : ∀ d, IsDir g m d → own d)
    (hsize : ∀ d, IsDir g m d → 128 ∣ oiSize m (inodeAt d))
    (hchanges : ChangesOnly (inodeBytes i) m m') (hdir : ¬ IsDir g m i)
    (hdir' : ¬ IsDir g m' i) : slot g m' (d, k) = slot g m (d, k) := by
  by_cases hdi : d = i
  · subst hdi
    rw [slot_eq_none fun hvalid => hdir hvalid.1, slot_eq_none fun hvalid => hdir' hvalid.1]
  · have hiff : IsDir g m' d ↔ IsDir g m d := by
      refine and_congr_right fun _ => ?_
      rw [show oiNlink m' (inodeAt d) = _ from load_of_inode hchanges hdi (by decide),
        show oiFtype m' (inodeAt d) = _ from load_of_inode hchanges hdi (by decide)]
      rfl
    have hsame : oiSize m' (inodeAt d) = oiSize m (inodeAt d) :=
      load_of_inode hchanges hdi (n := 0) (by decide)
    refine slot_congr hiff (hsize d) ?_ ?_ ?_
    · intro hd
      rw [hsame]
      exact hsize d hd
    · intro _
      simp only [entryCount, hsame]
    · exact fun hd off hoff _ _ _ =>
        (sameFile_of_inode h hi (hdirs d hd) hdi hchanges).content (h.file d (hdirs d hd)) hoff

/-! ## One place of the table -/

/-- One place of the table is filled. -/
structure Put (g : Geometry) (m m' : Memory) (p : Nat × Nat) (ino : Nat) (name : Name) :
    Prop where
  here : slot g m' p = some (ino, name)
  others : ∀ q, q ≠ p → slot g m' q = slot g m q

namespace Put

variable {p : Nat × Nat}

theorem entries_self (hp : Put g m m' p ino name) :
    entries g m' ino = insert p (entries g m ino) := by
  ext q
  rw [Set.mem_insert_iff, mem_entries]
  by_cases hq : q = p
  · subst hq
    simp only [hp.here, true_or, iff_true]
    exact ⟨name, rfl⟩
  · simp only [hp.others q hq, hq, false_or, mem_entries]

theorem entries_of_ne (hp : Put g m m' p ino name) (hi : i ≠ ino) :
    entries g m' i = entries g m i \ {p} := by
  ext q
  rw [Set.mem_sdiff, Set.mem_singleton_iff, mem_entries]
  by_cases hq : q = p
  · subst hq
    simp [hp.here, Ne.symm hi]
  · simp only [hp.others q hq, hq, not_false_eq_true, and_true, mem_entries]

theorem named (hp : Put g m m' p ino name) (hino : ino < g.ninodes)
    (h : ∀ q i n, slot g m q = some (i, n) → i < g.ninodes) :
    ∀ q i n, slot g m' q = some (i, n) → i < g.ninodes := by
  intro q i n hq
  by_cases hqp : q = p
  · subst hqp
    simp only [hp.here, Option.some.injEq, Prod.mk.injEq] at hq
    exact hq.1 ▸ hino
  · rw [hp.others q hqp] at hq
    exact h q i n hq

end Put

/-! ## `create_blank_direntry` -/

/-- The result of `create_blank_direntry` is the place `k` of the directory. -/
structure Blank (lossless : Prop) (g : Geometry) (own : Nat → Prop) (d k : Nat)
    (m m' : Memory) : Prop extends Resized lossless g own d m m' where
  size_le : oiSize m (inodeAt d) ≤ oiSize m' (inodeAt d)
  dvd : 128 ∣ oiSize m' (inodeAt d)
  lt : k < entryCount m' (inodeAt d)
  others : ∀ n, n ≠ k → (n < entryCount m' (inodeAt d) ↔ n < entryCount m (inodeAt d))
  blank : k < entryCount m (inodeAt d) → odIno m (entryAt m d k) = 0

theorem Blank.slot_of_ne {p : Nat × Nat} (hb : Blank lossless g own d k m m')
    (h : Stored lossless g m own) (hdirs : ∀ d, IsDir g m d → own d)
    (hsize : ∀ d, IsDir g m d → 128 ∣ oiSize m (inodeAt d)) (hd : IsDir g m d)
    (hp : p ≠ (d, k)) : slot g m' p = slot g m p := by
  refine hb.slot_eq h hd.1 hdirs hsize (fun _ => hb.dvd) fun heq _ => hb.others p.2 ?_
  rintro rfl
  exact hp (Prod.ext heq rfl)

/-- The place was not used before. -/
theorem Blank.not_mem_entries (hb : Blank lossless g own d k m m') (hi : 0 < i) :
    (d, k) ∉ entries g m i := by
  rintro ⟨name, hslot⟩
  obtain ⟨-, hk, hino, -⟩ := of_slot_eq_some hslot
  have hzero := hb.blank hk
  omega

theorem createBlankDirentry_cases (h : Stored lossless g m own) (hown : own d)
    (hsize : 128 ∣ oiSize m (inodeAt d))
    (hroom : findOffset m (inodeAt d) (fun od => odIno m od = 0) = none →
      Resizable lossless g own m d (oiSize m (inodeAt d) + 128)) :
    (∃ m', createBlankDirentry m (inodeAt d) = (.error .enospc, m') ∧
        Resized lossless g own d m m' ∧ oiSize m' (inodeAt d) = oiSize m (inodeAt d)) ∨
      ∃ k m', createBlankDirentry m (inodeAt d) = (.ok (entryAt m' d k), m') ∧
        Blank lossless g own d k m m' := by
  unfold createBlankDirentry
  cases hfind : findOffset m (inodeAt d) (fun od => odIno m od = 0) with
  | some off =>
      obtain ⟨k, hk, rfl, hblank⟩ := findOffset_some hfind
      exact .inr ⟨k, m, rfl, .refl h, le_rfl, hsize, hk, fun _ _ => Iff.rfl,
        fun _ => of_decide_eq_true hblank⟩
  | none =>
      obtain ⟨r, m', hchange, hresized, hresult⟩ := hroom hfind
      have hle := (h.file d hown).size_le
      unfold Slot.maxfileblks at hle
      have hbound : (oiSize m (inodeAt d) + 128) % 2 ^ 32 = oiSize m (inodeAt d) + 128 :=
        Nat.mod_eq_of_lt (by omega)
      simp only [hbound, hchange]
      rcases hresult with ⟨rfl, hnew⟩ | ⟨rfl, hsame⟩
      · refine .inr ⟨entryCount m (inodeAt d), m', rfl, hresized, by omega, by omega, ?_, ?_,
          fun hlt => absurd hlt (lt_irrefl _)⟩
        · unfold entryCount
          omega
        · intro n hn
          unfold entryCount at *
          omega
      · exact .inl ⟨m', rfl, hresized, hsame⟩

end Cs111Labs.Ospfs
