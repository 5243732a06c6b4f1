import Cs111Labs.Ospfs.EntryUpdates
import Cs111Labs.Ospfsformat.Nodes

/-!
# A place for a directory entry

`allocdirentry` looks for a blank entry in the last block of the directory only.
All blocks before it are full.
-/

namespace Cs111Labs.Ospfsformat

open Foundation Memory Ospfs

variable {o : Opened} {g : Geometry} {m m' : Memory} {n n' : Nat → Nat}
  {a b d i j k c links mode : Nat} {s s' : Writer} {nodes : List Node}
  {name : Name} {entries : List (Nat × Name)} {de : Direntry}

/-! ## Blocks of a directory -/

theorem entryPlace_eq (m : Memory) (d k : Nat) :
    entryPlace m d k =
      ospfsBlock ((Slot.ofIndex (k / 8)).target m (inodeAt d)) + 128 * (k % 8) := by
  rw [entryPlace, blockAddress, blockNumber, show 128 * k / 1024 = k / 8 by omega]
  omega

theorem directoryBlock_eq {dirb : Nat}
    (h : directoryBlock o (inodeAt d) c m = some dirb) :
    dirb = ospfsBlock ((Slot.ofIndex c).target m (inodeAt d)) := by
  unfold directoryBlock at h
  unfold Slot.ofIndex
  split_ifs at h with hdouble hsingle
  · obtain ⟨m₁, hget₁, h⟩ := Option.bind_eq_some_iff.1 h
    obtain ⟨m₂, hget₂, h⟩ := Option.bind_eq_some_iff.1 h
    obtain ⟨-, -, rfl⟩ := Option.map_eq_some_iff.1 h
    obtain ⟨-, rfl⟩ := getblk_some hget₁
    obtain ⟨-, rfl⟩ := getblk_some hget₂
    rw [if_neg (by omega), if_neg (by omega)]
    simp only [Slot.target, Nat.sub_sub]
  · obtain ⟨m₁, hget₁, h⟩ := Option.bind_eq_some_iff.1 h
    obtain ⟨-, -, rfl⟩ := Option.map_eq_some_iff.1 h
    obtain ⟨-, rfl⟩ := getblk_some hget₁
    rw [if_neg (by omega), if_pos (by omega)]
    rfl
  · obtain ⟨-, -, rfl⟩ := Option.map_eq_some_iff.1 h
    rw [if_pos (by omega)]
    rfl

/-- The first blank entry of the last block. -/
theorem find_blank {dirb : Nat} (hentries : ∀ k < 8 * c, EntryIs m (entryPlace m d k) entries[k]?)
    (hpos : ∀ entry ∈ entries, entry.1 ≠ 0) (hle : entries.length ≤ 8 * c)
    (hge : 8 * (c - 1) ≤ entries.length) (hc : c ≠ 0)
    (hdirb : dirb = ospfsBlock ((Slot.ofIndex (c - 1)).target m (inodeAt d))) :
    (List.range 8).find? (fun i => odIno m (dirb + 128 * i) = 0) =
      if entries.length < 8 * c then some (entries.length - 8 * (c - 1)) else none := by
  have hplace : ∀ i < 8, dirb + 128 * i = entryPlace m d (8 * (c - 1) + i) := fun i hi => by
    rw [entryPlace_eq, show (8 * (c - 1) + i) / 8 = c - 1 by omega,
      show (8 * (c - 1) + i) % 8 = i by omega, hdirb]
  have hblank : ∀ i < 8, odIno m (dirb + 128 * i) = 0 ↔ entries.length ≤ 8 * (c - 1) + i := by
    intro i hi
    have hentry := hentries (8 * (c - 1) + i) (by omega)
    rw [hplace i hi]
    rcases Nat.lt_or_ge (8 * (c - 1) + i) entries.length with hlt | hge
    · rw [List.getElem?_eq_getElem hlt] at hentry
      have hne := hpos _ (List.getElem_mem hlt)
      rw [hentry.1]
      exact ⟨fun heq => absurd heq hne, fun hle => absurd hlt (not_lt.2 hle)⟩
    · rw [List.getElem?_eq_none hge] at hentry
      exact ⟨fun _ => hge, fun _ => hentry⟩
  split_ifs with hroom
  · rw [List.find?_range_eq_some, decide_eq_true_iff, hblank _ (by omega), List.mem_range]
    refine ⟨by omega, by omega, fun i hi => ?_⟩
    rw [Bool.not_eq_true', decide_eq_false_iff_not, hblank i (by omega)]
    omega
  · rw [List.find?_eq_none]
    intro i hi
    have hi := List.mem_range.1 hi
    rw [decide_eq_true_iff, hblank i hi]
    omega

/-! ## A new block -/

theorem foldl_eq_self {α β : Type} {f : α → β → α} {x : α} {items : List β}
    (h : ∀ y ∈ items, f x y = x) : items.foldl f x = x := by
  induction items with
  | nil => rfl
  | cons y items ih =>
      rw [List.foldl_cons, h y List.mem_cons_self]
      exact ih fun y hy => h y (List.mem_cons_of_mem _ hy)

/-- The entries of a block that was cleared are blank. -/
theorem blankEntries_eq (hb : g.IsData b) :
    (List.range 8).foldl (fun disk i => setOdIno disk (ospfsBlock b + 128 * i) 0)
      (eraseBlock m b) = eraseBlock m b := by
  refine foldl_eq_self fun i hi => ?_
  have hlt := List.mem_range.1 hi
  have hzero : load32 (eraseBlock m b) (ospfsBlock b + 128 * i) = 0 :=
    load32_eq_zero fun e he => eraseBlock_zero hb (by
      rw [hb.block]
      simp only [blockBytes, Set.mem_Ico]
      omega)
  rw [setOdIno, ← hzero]
  exact store32_load32 _ _

theorem setOiSize_changesOnly (m : Memory) (i v : Nat) :
    ChangesOnly (Set.Ico (inodeAt i) (inodeAt i + 16)) m (setOiSize m (inodeAt i) v) :=
  (store32_changesOnly m (inodeAt i) v).mono fun a ha => by
    simp only [Set.mem_Ico] at *
    omega

theorem set_of_getElem? {α : Type} {items : List α} {x : α} (h : items[i]? = some x) :
    items.set i x = items := by
  obtain ⟨hlt, rfl⟩ := List.getElem?_eq_some_iff.1 h
  exact List.set_getElem_self hlt

/-- A directory whose blocks are full gets one more. -/
theorem newDirectoryBlock_drawn (ho : o.nblocks = g.nblocks) (h : Drawn g s n ∅ ∅ nodes)
    (hd : nodes[d]? = some (.dir links mode entries)) (hfull : entries.length = 8 * n d)
    (hnew : newDirectoryBlock o (inodeAt d) (n d) s = some s') :
    Drawn g s' (Function.update n d (n d + 1)) ∅ ∅ nodes ∧
      ospfsBlock s.nextb = entryPlace s'.disk d entries.length ∧
      s'.nextinode = s.nextinode ∧ s'.hardlinks = s.hardlinks := by
  obtain ⟨disk, hget, hrest⟩ := Option.bind_eq_some_iff.1 hnew
  obtain ⟨s₁, hstore, hend⟩ := Option.bind_eq_some_iff.1 hrest
  obtain ⟨hlt, rfl⟩ := getblk_some hget
  rw [ho] at hlt
  have hdata := h.laid.fresh hlt
  rw [if_pos rfl, blankEntries_eq hdata] at hstore
  dsimp only at hend
  split_ifs at hend with hassert
  obtain rfl := Option.some.inj hend
  have hdlt := h.lt hd
  have hlength := (List.getElem?_eq_some_iff.1 hd).1
  have hstands := h.stands d _ (Set.notMem_empty d) hd
  obtain ⟨hsize, hmode, hcount, hentries⟩ := hstands.body
  have htake := (h.take hlt).forget hlength
  have hpending : s.nextb ∈ insert s.nextb (∅ : Set Nat) := Set.mem_insert _ _
  have hpoints₁ := h.laid.take_points hlt d
  have hpointers : HasPointers (eraseBlock s.disk s.nextb) d := by
    refine HasPointers.points ?_ hpoints₁ h.laid hdlt
    rw [HasPointers, hstands.ftype]
    exact (by decide : ftypeDir ≠ ftypeSymlink)
  have hnext := storeblk_nextBlock ho htake.laid hdlt
    (fun t => ⟨And.right, fun ht => ⟨hdlt, ht⟩⟩) hpending hpointers hstore
  have hgrown := htake.grow (Set.mem_insert d ∅) rfl hnext
  have hload : ∀ e ≤ 12, load32 s₁.disk (inodeAt d + e) = load32 s.disk (inodeAt d + e) :=
    fun e he => (hnext.points.field htake.laid hdlt he).trans (hpoints₁.field h.laid hdlt he)
  have hchanges := setOiSize_changesOnly s₁.disk d (oiSize s₁.disk (inodeAt d) + 1024)
  set m' := setOiSize s₁.disk (inodeAt d) (oiSize s₁.disk (inodeAt d) + 1024) with hm'
  have hload' : ∀ e, 4 ≤ e → e ≤ 12 → load32 m' (inodeAt d + e) = load32 s.disk (inodeAt d + e) :=
    fun e he he' => (load32_store32_of_disjoint (by omega)).trans (hload e he')
  have hbytes : ∀ off e, off < 1024 * (n d + 1) → off % 1024 + e < 1024 →
      m' (blockAddress m' d off + e) = s₁.disk (blockAddress s₁.disk d off + e) := by
    refine fun off e hoff he => hgrown.laid.field_bytes hdlt hchanges ⟨hdlt, ?_⟩ he
    rw [Function.update_self]
    exact Slot.ofIndex_inUse (Nat.div_lt_of_lt_mul hoff) hnext.lt
  have hnewSize : oiSize m' (inodeAt d) = 1024 * (n d + 1) := by
    have hlt := hnext.lt
    unfold Slot.maxfileblks at hlt
    rw [hm', show oiSize s₁.disk (inodeAt d) = _ from hload 0 (by decide),
      show load32 s.disk (inodeAt d + 0) = _ from hsize]
    exact (load32_store32_same _ _ _).trans (by omega)
  have hstands' : Stands m' (Function.update n d (n d + 1) d) d (.dir links mode entries) := by
    rw [Function.update_self]
    refine ⟨(hload' 4 (by decide) (by decide)).trans hstands.ftype,
      (hload' 8 (by decide) (by decide)).trans hstands.nlink, hnewSize,
      (hload' 12 (by decide) le_rfl).trans hmode, by omega, fun k hk => ?_⟩
    rcases Nat.lt_or_ge k (8 * n d) with hold | hnew
    · refine (hentries k hold).congr fun e he => ?_
      refine (hbytes (128 * k) e (by omega) (by omega)).trans ?_
      refine (hnext.oldBytes htake.laid hdlt rfl (by omega) (by omega)).trans ?_
      have hindex : 128 * k / 1024 < n d := by omega
      have huse : placesOf g n (d, Slot.ofIndex (128 * k / 1024)) :=
        ⟨hdlt, Slot.ofIndex_inUse hindex hnext.lt.le⟩
      rw [blockAddress_congr (hpoints₁.kept _ huse).2]
      refine (eraseBlock_changesOnly hdata) _ fun hmem => ?_
      exact not_mem_blockBytes_of_ne (h.laid.lt huse).ne
        (h.laid.mem_block huse (by omega)) hmem
    · rw [List.getElem?_eq_none (by omega)]
      refine load32_eq_zero fun e he => ?_
      refine (hbytes (128 * k) e (by omega) (by omega)).trans ?_
      rw [hnext.newBytes htake.laid hdlt hpending (by omega) (by omega)]
      exact eraseBlock_zero hdata (by simp only [blockBytes, Set.mem_Ico]; omega)
  have hresult := (hgrown.fields (Set.mem_insert d ∅) hchanges fun _ => ?_).modify
    (Set.notMem_empty d) hstands'
  · have hempty : insert s.nextb (∅ : Set Nat) \ {s.nextb} = ∅ :=
      Set.insert_sdiff_self_of_notMem (Set.notMem_empty _)
    rw [hempty, set_of_getElem? hd] at hresult
    have hplace : placesOf g (Function.update n d (n d + 1)) (d, Slot.ofIndex (n d)) := by
      refine ⟨hdlt, ?_⟩
      rw [Function.update_self]
      exact Slot.ofIndex_inUse (Nat.lt_succ_self _) hnext.lt
    have hsame := hgrown.laid.spans.target_eq hchanges
      (fun q hq a ha => hgrown.laid.word_field (hgrown.laid.spans.inPlace q hq) hdlt ha) hplace
    refine ⟨hresult, ?_, hnext.nextinode, hnext.hardlinks⟩
    rw [entryPlace_eq, hfull, show 8 * n d / 8 = n d by omega, show 8 * n d % 8 = 0 by omega]
    exact congrArg ospfsBlock (hsame.trans hnext.target).symm
  · rw [HasPointers, show oiFtype s₁.disk (inodeAt d) = _ from hload 4 (by decide)]
    rw [show load32 s.disk (inodeAt d + 4) = _ from hstands.ftype]
    exact (by decide : ftypeDir ≠ ftypeSymlink)

/-! ## One entry -/

/-- The entry after the last one is written. -/
theorem Drawn.entry (h : Drawn g s n ∅ ∅ nodes)
    (hd : nodes[d]? = some (.dir links mode entries)) (hroom : entries.length < 8 * n d)
    (hchanges : ChangesOnly (Set.Ico (entryPlace s.disk d entries.length)
      (entryPlace s.disk d entries.length + 128)) s.disk m')
    (extra : Option (Nat × Name)) (hextra : EntryIs m' (entryPlace s.disk d entries.length) extra) :
    Drawn g { s with disk := m' } n ∅ ∅ (nodes.set d (.dir links mode (entries ++ extra.toList))) ∧
      entryPlace m' d entries.length = entryPlace s.disk d entries.length := by
  have hlength := (List.getElem?_eq_some_iff.1 hd).1
  have hdlt := h.lt hd
  have hstands := h.stands d _ (Set.notMem_empty d) hd
  obtain ⟨hsize, hmode, hcount, hentries⟩ := hstands.body
  have hinUse : ∀ k < 8 * n d, (Slot.ofIndex (128 * k / 1024)).InUse (n d) := fun k hk =>
    Slot.ofIndex_inUse (by omega) (h.small d)
  have hplace : placesOf g n (d, Slot.ofIndex (128 * entries.length / 1024)) :=
    ⟨hdlt, hinUse _ hroom⟩
  have hdata := h.laid.isData hplace
  have haddress : entryPlace s.disk d entries.length =
      1024 * (diskTree g).target s.disk (d, Slot.ofIndex (128 * entries.length / 1024)) +
        128 * entries.length % 1024 := h.laid.blockAddress_eq hplace
  have hblock : ChangesOnly
      (blockBytes ((Slot.ofIndex (128 * entries.length / 1024)).target s.disk (inodeAt d)))
      s.disk m' := hchanges.mono fun a ha => by
    rw [haddress, diskTree_target] at ha
    simp only [blockBytes, Set.mem_Ico] at *
    omega
  have hfree : ∀ p, placesOf g n p → p.2.IsMeta → (diskTree g).target s.disk p ≠
      (Slot.ofIndex (128 * entries.length / 1024)).target s.disk (inodeAt d) := by
    intro p hp hmeta heq
    have hsame := h.laid.spans.injective p _ hp hplace heq
    subst hsame
    exact Slot.ofIndex_not_isMeta _ hmeta
  have hkept : ∀ k < 8 * n d, entryPlace m' d k = entryPlace s.disk d k := fun k hk =>
    blockAddress_congr (h.laid.writeBlock_target hdata hfree hblock
      (p := (d, Slot.ofIndex (128 * k / 1024))) ⟨hdlt, hinUse k hk⟩)
  have hload : ∀ e ≤ 12, load32 m' (inodeAt d + e) = load32 s.disk (inodeAt d + e) :=
    fun e he => load32_congr fun x hx => hblock _ fun hmem =>
      not_mem_blockBytes_of_inode hdata hdlt (by
        simp only [inodeBytes, Set.mem_Ico]
        omega) hmem
  refine ⟨h.dataBlock hlength (Set.notMem_empty d) (hinUse _ hroom)
    (Slot.ofIndex_not_isMeta _) hblock ⟨(hload 4 (by decide)).trans hstands.ftype,
      (hload 8 (by decide)).trans hstands.nlink, (hload 0 (by decide)).trans hsize,
      (hload 12 le_rfl).trans hmode, ?_, fun k hk => ?_⟩, hkept _ hroom⟩
  · have hone : extra.toList.length ≤ 1 := Option.length_toList_le
    rw [List.length_append]
    omega
  · rw [hkept k hk]
    by_cases hlast : k = entries.length
    · subst hlast
      rw [List.getElem?_append_right le_rfl, Nat.sub_self]
      cases extra <;> exact hextra
    · have hsame : (entries ++ extra.toList)[k]? = entries[k]? := by
        rcases Nat.lt_or_ge k entries.length with hlt | hge
        · exact List.getElem?_append_left hlt
        · have hone : extra.toList.length ≤ 1 := Option.length_toList_le
          rw [List.getElem?_eq_none hge, List.getElem?_eq_none]
          rw [List.length_append]
          omega
      rw [hsame]
      refine (hentries k hk).congr fun e he => hchanges _ fun hmem => ?_
      have hother : placesOf g n (d, Slot.ofIndex (128 * k / 1024)) := ⟨hdlt, hinUse k hk⟩
      have hmine : entryPlace s.disk d k + e ∈ blockBytes
          ((diskTree g).target s.disk (d, Slot.ofIndex (128 * k / 1024))) :=
        h.laid.mem_block hother (by omega)
      have hits : entryPlace s.disk d k + e ∈ blockBytes
          ((diskTree g).target s.disk (d, Slot.ofIndex (128 * entries.length / 1024))) := by
        rw [haddress] at hmem
        simp only [blockBytes, Set.mem_Ico] at *
        omega
      have hindex : 128 * k / 1024 = 128 * entries.length / 1024 := by
        by_contra hne
        refine not_mem_blockBytes_of_ne (fun heq => hne ?_) hmine hits
        exact Slot.ofIndex_injective
          (Prod.mk.inj (h.laid.spans.injective _ _ hother hplace heq)).2
      rw [entryPlace_eq, entryPlace_eq, show k / 8 = entries.length / 8 by omega] at hmem
      simp only [Set.mem_Ico] at hmem
      omega

/-! ## Allocation -/

/-- An entry of a directory that has a name and is blank otherwise. -/
structure Granted (g : Geometry) (s : Writer) (d : Nat) (name : Name) (nodes : List Node)
    (entries : List (Nat × Name)) (n : Nat → Nat) (de : Direntry) : Prop where
  drawn : Drawn g de.writer n ∅ ∅ nodes
  room : entries.length < 8 * n d
  place : de.od = entryPlace de.writer.disk d entries.length
  named : 0 ∉ name → odName de.writer.disk de.od = name
  length : name.length ≤ 123
  nextinode : de.writer.nextinode = s.nextinode
  hardlinks : de.writer.hardlinks = s.hardlinks

theorem Drawn.grant {a : Nat} (h : Drawn g s n ∅ ∅ nodes)
    (hd : nodes[d]? = some (.dir links mode entries)) (hroom : entries.length < 8 * n d)
    (hplace : a = entryPlace s.disk d entries.length) (hlength : name.length ≤ 123) :
    Granted g s d name nodes entries n ⟨a, { s with disk := setOdName s.disk a name }⟩ := by
  have hchanges : ChangesOnly (Set.Ico (entryPlace s.disk d entries.length)
      (entryPlace s.disk d entries.length + 128)) s.disk (setOdName s.disk a name) := by
    rw [← hplace]
    refine (setOdName_changesOnly hlength).mono fun x hx => ?_
    simp only [Set.mem_Ico] at *
    omega
  have hblank : EntryIs (setOdName s.disk a name) (entryPlace s.disk d entries.length) none := by
    have hentry := (h.stands d _ (Set.notMem_empty d) hd).body.2.2.2 _ hroom
    rw [List.getElem?_eq_none le_rfl] at hentry
    rw [EntryIs, ← hplace, odIno_setOdName hlength, hplace]
    exact hentry
  obtain ⟨hdrawn, hkept⟩ := h.entry hd hroom hchanges none hblank
  rw [Option.toList_none, List.append_nil, set_of_getElem? hd] at hdrawn
  exact ⟨hdrawn, hroom, hplace.trans hkept.symm, fun hzero => odName_setOdName hlength hzero,
    hlength, rfl, rfl⟩

theorem allocdirentry_granted (ho : o.nblocks = g.nblocks) (h : Drawn g s n ∅ ∅ nodes)
    (hd : nodes[d]? = some (.dir links mode entries)) (hpos : ∀ entry ∈ entries, entry.1 ≠ 0)
    (halloc : allocdirentry o (inodeAt d) name s = some de) :
    ∃ n', Granted g s d name nodes entries n' de := by
  obtain ⟨hsize, -, ⟨hle, hge⟩, hentries⟩ := (h.stands d _ (Set.notMem_empty d) hd).body
  have hnblk : ospfsSize2nblocks (oiSize s.disk (inodeAt d)) = n d := by
    have hsmall := h.small d
    unfold Slot.maxfileblks at hsmall
    rw [hsize, ospfsSize2nblocks]
    omega
  unfold allocdirentry at halloc
  dsimp only at halloc
  rw [hnblk] at halloc
  have hnewBlock : entries.length = 8 * n d →
      (newDirectoryBlock o (inodeAt d) (n d) s).map (fun s' =>
        (⟨ospfsBlock s.nextb, { s' with disk := setOdName s'.disk (ospfsBlock s.nextb) name }⟩ :
          Direntry)) = some de → name.length ≤ 123 →
      ∃ n', Granted g s d name nodes entries n' de := by
    intro hfull hnew hlength
    obtain ⟨s', hblock, rfl⟩ := Option.map_eq_some_iff.1 hnew
    obtain ⟨hdrawn, hplace, hnextinode, hhardlinks⟩ :=
      newDirectoryBlock_drawn ho h hd hfull hblock
    have hroom : entries.length < 8 * Function.update n d (n d + 1) d := by
      rw [Function.update_self]
      omega
    have hgrant := hdrawn.grant hd hroom hplace hlength
    exact ⟨_, { hgrant with
      nextinode := hgrant.nextinode.trans hnextinode
      hardlinks := hgrant.hardlinks.trans hhardlinks }⟩
  split_ifs at halloc with hlong hnone
  · exact hnewBlock (by omega) halloc (not_lt.1 hlong)
  · obtain ⟨dirb, hdirb, hfind⟩ := Option.bind_eq_some_iff.1 halloc
    rw [find_blank hentries hpos hle hge hnone (directoryBlock_eq hdirb)] at hfind
    split_ifs at hfind with hroom
    · obtain rfl := Option.some.inj hfind
      refine ⟨n, h.grant hd hroom ?_ (not_lt.1 hlong)⟩
      rw [entryPlace_eq, directoryBlock_eq hdirb, show entries.length / 8 = n d - 1 by omega,
        show entries.length % 8 = entries.length - 8 * (n d - 1) by omega]
    · exact hnewBlock (by omega) hfind (not_lt.1 hlong)

end Cs111Labs.Ospfsformat
