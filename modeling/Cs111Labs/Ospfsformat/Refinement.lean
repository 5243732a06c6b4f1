import Cs111Labs.Ospfsformat.Copying
import Cs111Labs.Ospfsformat.Sketch

/-!
# The formatter on blocks

Each function changes the blocks to those of the files that the sketch has
afterwards.
-/

namespace Cs111Labs.Ospfsformat

open Foundation Memory Ospfs
open Image (Hardlink addHardlink)

variable {o : Opened} {g : Geometry} {m m' : Memory} {n n' : Nat → Nat} {P : Set Nat}
  {nextb a c d i j k ino links mode : Nat} {s s' : Writer} {nodes : List Node} {node : Node}
  {entries : List (Nat × Name)} {name text : Name} {hostIno : BitVec 64} {bytes : List UInt8}
  {sk : Sketch} {tree : HostTree} {de : Direntry}

/-- The disk that `opendisk` lays out for these sizes. -/
structure Fitted (o : Opened) (g : Geometry) : Prop where
  nblocks : o.nblocks = g.nblocks
  ninodes : o.ninodes = g.ninodes
  firstinob : o.firstinob = 3

theorem Fitted.inodePointer_eq (ho : Fitted o g) (hi : i < g.ninodes) :
    inodePointer o i = inodeAt i := by
  have hle := g.ninodes_le
  have hblocks := g.nblocks_le
  rw [inodePointer, ho.firstinob]
  unfold ospfsBlock inodeAt
  omega

/-! ## Lists of files -/

theorem modify_eq_set {f : Node → Node} (h : nodes[i]? = some node) :
    nodes.modify i f = nodes.set i (f node) := by
  apply List.ext_getElem?
  intro j
  rw [modify_getElem?]
  by_cases hij : i = j
  · subst hij
    rw [List.getElem?_set_self (List.getElem?_eq_some_iff.1 h).1, h, Option.map_some, if_pos rfl]
  · rw [List.getElem?_set_ne hij]
    simp only [hij, if_false]
    exact Option.map_id'

theorem modify_concat_last {f : Node → Node} (hd : d < nodes.length) :
    ((nodes ++ [node]).modify d f)[nodes.length]? = some node := by
  rw [List.getElem?_modify_ne _ _ hd.ne, List.getElem?_concat_length]

theorem length_modify_concat (nodes : List Node) (node : Node) (d : Nat) (f : Node → Node) :
    ((nodes ++ [node]).modify d f).length = nodes.length + 1 := by
  rw [List.length_modify, List.length_append, List.length_singleton]

theorem set_modify_concat {f : Node → Node} {node' : Node} (hd : d < nodes.length) :
    ((nodes ++ [node]).modify d f).set nodes.length node' = (nodes ++ [node']).modify d f := by
  apply List.ext_getElem?
  intro j
  by_cases hj : j = nodes.length
  · subst hj
    rw [List.getElem?_set_self (by rw [length_modify_concat]; exact Nat.lt_succ_self _),
      modify_concat_last hd]
  · rw [List.getElem?_set_ne (Ne.symm hj), modify_getElem?, modify_getElem?]
    rcases Nat.lt_or_gt_of_ne hj with hlt | hgt
    · rw [List.getElem?_append_left hlt, List.getElem?_append_left hlt]
    · rw [List.getElem?_eq_none, List.getElem?_eq_none]
      all_goals
        rw [List.length_append, List.length_singleton]
        exact hgt

/-! ## Link counts -/

theorem Stands.relink {U : Nat × Slot → Prop} (h : Stands m c i node)
    (hc : c ≤ Slot.maxfileblks) (hlaid : Laid g m U P nextb) (hi : i < g.ninodes)
    (hU : ∀ t : Slot, t.InUse c → U (i, t))
    (hchanges : ChangesOnly (Set.Ico (inodeAt i + 8) (inodeAt i + 12)) m m')
    (hnlink : oiNlink m' (inodeAt i) = links % 2 ^ 32) :
    Stands m' c i (node.extend links []) := by
  have hload : ∀ e, e + 4 ≤ 8 ∨ 12 ≤ e → load32 m' (inodeAt i + e) = load32 m (inodeAt i + e) :=
    fun e he => hchanges.load32 fun x hx hmem => by
      simp only [Set.mem_Ico] at hmem
      omega
  have hwide : ChangesOnly (Set.Ico (inodeAt i) (inodeAt i + 16)) m m' :=
    hchanges.mono fun x hx => by
      simp only [Set.mem_Ico] at *
      omega
  have hbyte : ∀ off e, off < 1024 * c → off % 1024 + e < 1024 →
      m' (blockAddress m' i off + e) = m (blockAddress m i off + e) := fun off e hoff he =>
    hlaid.field_bytes hi hwide (hU _ (Slot.ofIndex_inUse (by omega) hc)) he
  have hftype := (hload 4 (by decide)).trans h.ftype
  have hsize : oiSize m' (inodeAt i) = oiSize m (inodeAt i) := hload 0 (by decide)
  cases node with
  | reg old mode bytes =>
      obtain ⟨hbody, hmode, hcount, hbytes⟩ := h.body
      refine ⟨hftype, hnlink, hsize.trans hbody, (hload 12 (by decide)).trans hmode, hcount,
        fun k hk => ?_⟩
      rw [← hbytes k hk]
      exact hbyte k 0 (by omega) (by omega)
  | dir old mode entries =>
      obtain ⟨hbody, hmode, hcount, hentries⟩ := h.body
      rw [← List.append_nil entries] at hcount hentries
      refine ⟨hftype, hnlink, hsize.trans hbody, (hload 12 (by decide)).trans hmode, hcount,
        fun k hk => ?_⟩
      exact (hentries k hk).congr fun e he => hbyte (128 * k) e (by omega) (by omega)
  | symlink old text =>
      obtain ⟨hbody, hcount, hlength, hstring⟩ := h.body
      refine ⟨hftype, hnlink, hsize.trans hbody, hcount, hlength, hstring.frame fun e he =>
        hchanges _ ?_⟩
      simp only [Set.mem_Ico]
      omega

/-- A file has one more link. -/
theorem Drawn.relink (h : Drawn g s n ∅ ∅ nodes) (hi : nodes[i]? = some node) :
    Drawn g { s with
      disk := setOiNlink s.disk (inodeAt i) (oiNlink s.disk (inodeAt i) + 1) } n ∅ ∅
      (nodes.modify i Node.linked) := by
  have hilt := h.lt hi
  have hstands := h.stands i node (Set.notMem_empty i) hi
  have hchanges := store32_changesOnly s.disk (inodeAt i + 8) (oiNlink s.disk (inodeAt i) + 1)
  have hnlink : oiNlink (setOiNlink s.disk (inodeAt i) (oiNlink s.disk (inodeAt i) + 1))
      (inodeAt i) = (node.links + 1) % 2 ^ 32 := by
    rw [hstands.nlink]
    refine (load32_store32_same _ _ _).trans ?_
    omega
  rw [modify_eq_set hi]
  refine h.field (List.getElem?_eq_some_iff.1 hi).1 (Set.notMem_empty i) ?_ ?_
    (hstands.relink (h.small i) h.laid hilt (fun t ht => ⟨hilt, ht⟩) hchanges hnlink)
  · refine hchanges.mono fun x hx => ?_
    simp only [Set.mem_Ico] at *
    omega
  · rw [HasPointers, HasPointers, show oiFtype (setOiNlink s.disk (inodeAt i)
      (oiNlink s.disk (inodeAt i) + 1)) (inodeAt i) = oiFtype s.disk (inodeAt i) from
        load32_store32_of_disjoint (by omega)]
    exact id

/-! ## Entries -/

/-- The inode of an entry is written. -/
theorem Drawn.enter (h : Drawn g s n ∅ ∅ nodes)
    (hd : nodes[d]? = some (.dir links mode entries)) (hroom : entries.length < 8 * n d)
    (hplace : a = entryPlace s.disk d entries.length) (hname : odName s.disk a = name)
    (hino : ino < 2 ^ 32) :
    Drawn g { s with disk := setOdIno s.disk a ino } n ∅ ∅
      (nodes.modify d (Node.named ino name)) := by
  have hchanges : ChangesOnly (Set.Ico (entryPlace s.disk d entries.length)
      (entryPlace s.disk d entries.length + 128)) s.disk (setOdIno s.disk a ino) := by
    rw [← hplace]
    refine (setOdIno_changesOnly ino).mono fun x hx => ?_
    simp only [Set.mem_Ico] at *
    omega
  have hentry : EntryIs (setOdIno s.disk a ino) (entryPlace s.disk d entries.length)
      (some (ino, name)) := by
    rw [← hplace]
    exact ⟨odIno_setOdIno hino, (odName_setOdIno ino).trans hname⟩
  have hdrawn := (h.entry hd hroom hchanges _ hentry).1
  rw [modify_eq_set hd]
  exact hdrawn

theorem Drawn.hasPointers (h : Drawn g s n ∅ ∅ nodes) (hi : nodes[i]? = some node)
    (hnode : node.ftype ≠ ftypeSymlink) : HasPointers s.disk i := by
  rw [HasPointers, (h.stands i node (Set.notMem_empty i) hi).ftype]
  exact hnode

theorem Drawn.withHardlinks (h : Drawn g s n P ∅ nodes) (hardlinks : List Hardlink) :
    Drawn g { s with hardlinks := hardlinks } n P ∅ nodes :=
  ⟨h.laid, h.count, h.le, h.small, h.skipped, h.stands, h.fresh, h.boot, h.bitmap⟩

theorem allocinode_some (ho : Fitted o g) (h : Drawn g s n P ∅ nodes)
    (halloc : allocinode o s = some s') :
    nodes.length < g.ninodes ∧ s' = { s with nextinode := s.nextinode + 1 } := by
  unfold allocinode at halloc
  split_ifs at halloc with hfull
  obtain ⟨disk, hget, rfl⟩ := Option.map_eq_some_iff.1 halloc
  obtain ⟨-, rfl⟩ := getblk_some hget
  refine ⟨lt_of_le_of_ne h.le fun heq => hfull ?_, rfl⟩
  rw [← h.count, heq, ho.ninodes]

/-- The entry gets a new inode. -/
theorem Granted.newInode (ho : Fitted o g) (h : Granted g s d name nodes entries n de)
    (hd : nodes[d]? = some (.dir links mode entries)) (hzero : 0 ∉ name)
    (hnew : newInode o de.od hostIno de.writer = some s') :
    nodes.length < g.ninodes ∧
      Drawn g { s' with disk := setOdIno de.writer.disk de.od nodes.length } n ∅ ∅
        ((nodes ++ [Node.reg 0 0 []]).modify d (Node.named nodes.length name)) ∧
      s'.disk = setOiNlink (setOdIno de.writer.disk de.od nodes.length)
        (inodeAt nodes.length) 1 ∧
      s'.hardlinks = if hostIno ≠ 0 then
        addHardlink false s.hardlinks hostIno (BitVec.ofNat 32 nodes.length) none
        else s.hardlinks := by
  obtain ⟨s₁, halloc, rfl⟩ := Option.map_eq_some_iff.1 hnew
  obtain ⟨hlt, rfl⟩ := allocinode_some ho h.drawn halloc
  have hcount := h.drawn.count
  have hle := g.ninodes_le
  have hblocks := g.nblocks_le
  have hd' : (nodes ++ [.reg 0 0 []])[d]? = some (.dir links mode entries) := getElem?_concat hd
  have hentered := (h.drawn.alloc hlt).enter hd' h.room h.place (h.named hzero)
    (by omega : nodes.length < 2 ^ 32)
  dsimp only
  rw [← hcount, ho.inodePointer_eq hlt, h.hardlinks]
  rw [← hcount] at hentered
  exact ⟨hlt, hentered.withHardlinks _, rfl, rfl⟩

/-- The entry gets the inode of a file that is there. -/
theorem Granted.namedAgain (ho : Fitted o g) (h : Granted g s d name nodes entries n de)
    (hd : nodes[d]? = some (.dir links mode entries)) (hzero : 0 ∉ name)
    (hi : nodes[i]? = some node) (hfile : ¬ node.IsDir)
    (hagain : namedAgain o de.od i de.writer = some s') :
    Drawn g s' n ∅ ∅ ((nodes.modify d (Node.named i name)).modify i Node.linked) ∧
      s'.hardlinks = s.hardlinks := by
  obtain ⟨disk, hget, rfl⟩ := Option.map_eq_some_iff.1 hagain
  obtain ⟨-, rfl⟩ := getblk_some hget
  have hilt := h.drawn.lt hi
  have hle := g.ninodes_le
  have hblocks := g.nblocks_le
  have hentered := h.drawn.enter hd h.room h.place (h.named hzero) (by omega : i < 2 ^ 32)
  have hne : d ≠ i := by
    rintro rfl
    obtain rfl := Option.some.inj (hd.symm.trans hi)
    exact hfile rfl
  have hi' : (nodes.modify d (Node.named i name))[i]? = some node := by
    rw [List.getElem?_modify_ne _ _ hne, hi]
  have hlinked := hentered.relink hi'
  rw [ho.inodePointer_eq hilt]
  exact ⟨hlinked, h.hardlinks⟩

/-! ## Files -/

/-- The blocks are those of the sketch. -/
structure Represents (g : Geometry) (s : Writer) (sk : Sketch) : Prop where
  drawn : ∃ n, Drawn g s n ∅ ∅ sk.nodes
  hardlinks : s.hardlinks = sk.hardlinks
  valid : sk.Valid

theorem Represents.length_lt (h : Represents g s sk) : sk.nodes.length < 2 ^ 32 := by
  obtain ⟨n, hdrawn⟩ := h.drawn
  have hle := hdrawn.le
  have hinodes := g.ninodes_le
  have hblocks := g.nblocks_le
  omega

theorem Represents.granted (ho : Fitted o g) (h : Represents g s sk)
    (hd : sk.nodes[d]? = some (.dir links mode entries))
    (halloc : allocdirentry o (inodeAt d) name s = some de) :
    ∃ n, Granted g s d name sk.nodes entries n de := by
  obtain ⟨n, hdrawn⟩ := h.drawn
  refine allocdirentry_granted ho.nblocks hdrawn hd (fun entry hentry => ?_) halloc
  have htwo := (h.valid.targets d entry (by rwa [entriesOf_some hd])).1
  omega

theorem hardlinkIno_eq (h : s.hardlinks = sk.hardlinks) : hardlinkIno hostIno s = sk.known hostIno := by
  rw [hardlinkIno, Sketch.known, h]

/-! ## New inodes -/

theorem field_changesOnly (m : Memory) (i v : Nat) {e : Nat} (he : e ≤ 12) :
    ChangesOnly (Set.Ico (inodeAt i) (inodeAt i + 16)) m (store32 m (inodeAt i + e) v) :=
  (store32_changesOnly m _ v).mono fun x hx => by
    simp only [Set.mem_Ico] at *
    omega

theorem load_field_of_ne {e e' v : Nat} (h : e + 4 ≤ e' ∨ e' + 4 ≤ e) :
    load32 (store32 m (inodeAt i + e) v) (inodeAt i + e') = load32 m (inodeAt i + e') :=
  load32_store32_of_disjoint (by omega)

theorem load_field (m : Memory) (i e v : Nat) :
    load32 (store32 m (inodeAt i + e) v) (inodeAt i + e) = v % 2 ^ 32 :=
  load32_store32_same _ _ _

/-- `strcpy` -/
theorem copy_stringAt (m : Memory) (a : Nat) (hzero : 0 ∉ text) :
    StringAt (copy (copy m a text) (a + text.length) [0]) a text where
  nonzero := hzero
  bytes k hk := by
    have hmem : a ≤ a + k ∧ a + k < a + text.length := by omega
    rw [copy_changesOnly _ _ [0] (a + k) (by simp only [Set.mem_Ico]; omega), copy, if_pos hmem,
      Nat.add_sub_cancel_left]
    exact List.getD_eq_getElem _ _ hk
  terminator := by simp [copy]

/-- What `addsymlink` writes to an inode. -/
theorem symlink_stands (m : Memory) (i : Nat) (htext : 0 ∉ text) (hshort : text.length ≤ 51) :
    Stands (setOiSize (copy (copy (setOiFtype (setOiNlink m (inodeAt i) 1) (inodeAt i)
      ftypeSymlink) (inodeAt i + 12) text) (inodeAt i + 12 + text.length) [0]) (inodeAt i)
        text.length) 0 i (.symlink 1 text) ∧
    ChangesOnly (inodeBytes i) m (setOiSize (copy (copy (setOiFtype (setOiNlink m (inodeAt i) 1)
      (inodeAt i) ftypeSymlink) (inodeAt i + 12) text) (inodeAt i + 12 + text.length) [0])
        (inodeAt i) text.length) := by
  set m₁ := setOiFtype (setOiNlink m (inodeAt i) 1) (inodeAt i) ftypeSymlink with hm₁
  set m₂ := copy (copy m₁ (inodeAt i + 12) text) (inodeAt i + 12 + text.length) [0] with hm₂
  have hcopy : ChangesOnly (Set.Ico (inodeAt i + 12) (inodeAt i + 64)) m₁ m₂ := by
    refine ((copy_changesOnly m₁ _ text).mono ?_).trans ((copy_changesOnly _ _ [0]).mono ?_)
    all_goals
      intro x hx
      simp only [Set.mem_Ico, List.length_singleton] at *
      omega
  have hsize := setOiSize_changesOnly m₂ i text.length
  have hload : ∀ e, 4 ≤ e → e ≤ 8 →
      load32 (setOiSize m₂ (inodeAt i) text.length) (inodeAt i + e) =
        load32 m₁ (inodeAt i + e) := fun e hlo hhi =>
    (load32_store32_of_disjoint (by omega)).trans (hcopy.load32 fun x hx hmem => by
      simp only [Set.mem_Ico] at hmem
      omega)
  refine ⟨⟨(hload 4 le_rfl (by decide)).trans (load_field _ i 4 ftypeSymlink), ?_, ?_, rfl,
    hshort, (copy_stringAt m₁ (inodeAt i + 12) htext).frame fun e he => ?_⟩, ?_⟩
  · exact (hload 8 (by decide) le_rfl).trans
      ((load_field_of_ne (by decide)).trans (load_field m i 8 1))
  · exact (load32_store32_same _ _ _).trans (Nat.mod_eq_of_lt (by omega))
  · refine store32_changesOnly m₂ (inodeAt i) text.length _ ?_
    simp only [Set.mem_Ico]
    omega
  · refine (((field_changesOnly m i 1 (e := 8) (by decide)).trans
      (field_changesOnly _ i ftypeSymlink (e := 4) (by decide))).mono ?_).trans
        ((hcopy.mono ?_).trans (hsize.mono ?_))
    all_goals
      intro x hx
      simp only [inodeBytes, Set.mem_Ico] at *
      omega

theorem writefile_represents {mode' : Nat} (ho : Fitted o g) (h : Represents g s sk)
    (hd : sk.nodes[d]? = some (.dir links mode entries)) (hzero : 0 ∉ name)
    (hname : name ∉ entries.map Prod.snd)
    (hrun : writefile o (inodeAt d) name hostIno mode' bytes s = some s') :
    Represents g s' (sk.file d name hostIno (.reg 1 mode' bytes)) := by
  obtain ⟨de, halloc, hrest⟩ := Option.bind_eq_some_iff.1 hrun
  obtain ⟨n, hgranted⟩ := h.granted ho hd halloc
  have hvalid : (sk.file d name hostIno (.reg 1 mode' bytes)).Valid :=
    Sketch.file_valid h.valid hd rfl (by rwa [entriesOf_some hd]) rfl rfl
      (Node.not_isDir_reg _ _ _) h.length_lt
  dsimp only at hrest
  rw [hardlinkIno_eq (hgranted.hardlinks.trans h.hardlinks)] at hrest
  split_ifs at hrest with hknown
  · obtain ⟨s₁, hnew, hcopy⟩ := Option.bind_eq_some_iff.1 hrest
    obtain ⟨hlt, hentered, hdisk, hhard⟩ := hgranted.newInode ho hd hzero hnew
    have hnext : de.writer.nextinode = sk.nodes.length := hgranted.drawn.count.symm
    rw [hnext, ho.inodePointer_eq hlt, hdisk] at hcopy
    set m₁ := setOdIno de.writer.disk de.od sk.nodes.length
    set i := sk.nodes.length with hi
    set m₂ := setOiMode (setOiFtype (setOiNlink m₁ (inodeAt i) 1) (inodeAt i) ftypeReg)
      (inodeAt i) mode' with hm₂
    have hchanges : ChangesOnly (Set.Ico (inodeAt i) (inodeAt i + 16)) m₁ m₂ :=
      ((field_changesOnly m₁ i 1 (by decide)).trans
        (field_changesOnly _ i ftypeReg (by decide))).trans (field_changesOnly _ i mode' le_rfl)
    have hftype : oiFtype m₂ (inodeAt i) = ftypeReg :=
      (load_field_of_ne (by decide)).trans (load_field _ i 4 ftypeReg)
    have hnlink : oiNlink m₂ (inodeAt i) = 1 :=
      (load_field_of_ne (by decide)).trans
        ((load_field_of_ne (by decide)).trans (load_field m₁ i 8 1))
    have hmode : load32 m₂ (inodeAt i + 12) = mode' % 2 ^ 32 := load_field _ i 12 mode'
    have hfresh : n i = 0 := (hgranted.drawn.fresh i le_rfl hlt).1
    have hdlt := (List.getElem?_eq_some_iff.1 hd).1
    have hpointers := hentered.hasPointers (modify_concat_last hdlt)
      (by decide : ftypeReg ≠ ftypeSymlink)
    have hforget := hentered.forget (i := i) (by
      rw [length_modify_concat]
      exact Nat.lt_succ_self i)
    rw [insert_empty_eq] at hforget
    have hcopied : Copied g { s₁ with disk := m₂ } n
        ((sk.nodes ++ [Node.reg 0 0 []]).modify d (Node.named i name)) i 1 mode' [] :=
      ⟨hforget.fields rfl hchanges fun _ => hpointers, hfresh, hftype, hnlink, hmode,
        fun k hk => absurd hk (Nat.not_lt_zero k)⟩
    obtain ⟨⟨n', hdrawn⟩, -, hlinks⟩ := copyBlocks_drawn ho.nblocks hcopied (by
      rw [hfresh]
      rfl) (by rw [hfresh]; exact hcopy)
    rw [List.nil_append, set_modify_concat hdlt] at hdrawn
    refine ⟨⟨n', ?_⟩, ?_, hvalid⟩
    · rw [Sketch.file_nodes_of_new hknown]
      exact hdrawn
    · rw [hlinks, Sketch.file, if_pos hknown, ← h.hardlinks]
      exact hhard
  · obtain ⟨htwo, other, hother, hfile⟩ := h.valid.known hknown
    obtain ⟨hdrawn, hlinks⟩ := hgranted.namedAgain ho hd hzero hother hfile hrest
    refine ⟨⟨n, ?_⟩, ?_, hvalid⟩
    · rw [Sketch.file_nodes_of_known hknown]
      exact hdrawn
    · rw [Sketch.file, if_neg hknown]
      exact hlinks.trans h.hardlinks

theorem addsymlink_represents (ho : Fitted o g) (h : Represents g s sk)
    (hd : sk.nodes[d]? = some (.dir links mode entries)) (hzero : 0 ∉ name)
    (hname : name ∉ entries.map Prod.snd) (htext : 0 ∉ text) (hshort : text.length ≤ 51)
    (hrun : addsymlink o (inodeAt d) name text hostIno s = some s') :
    Represents g s' (sk.file d name hostIno (.symlink 1 text)) := by
  obtain ⟨de, halloc, hrest⟩ := Option.bind_eq_some_iff.1 hrun
  obtain ⟨n, hgranted⟩ := h.granted ho hd halloc
  have hvalid : (sk.file d name hostIno (.symlink 1 text)).Valid :=
    Sketch.file_valid h.valid hd rfl (by rwa [entriesOf_some hd]) rfl rfl
      (Node.not_isDir_symlink _ _) h.length_lt
  dsimp only at hrest
  rw [hardlinkIno_eq (hgranted.hardlinks.trans h.hardlinks)] at hrest
  split_ifs at hrest with hknown
  · obtain ⟨s₁, hnew, hend⟩ := Option.bind_eq_some_iff.1 hrest
    obtain ⟨hlt, hentered, hdisk, hhard⟩ := hgranted.newInode ho hd hzero hnew
    have hnext : de.writer.nextinode = sk.nodes.length := hgranted.drawn.count.symm
    rw [hnext, ho.inodePointer_eq hlt, hdisk] at hend
    obtain rfl := Option.some.inj hend
    set m₁ := setOdIno de.writer.disk de.od sk.nodes.length
    set i := sk.nodes.length with hi
    have hfresh : n i = 0 := (hgranted.drawn.fresh i le_rfl hlt).1
    have hdlt := (List.getElem?_eq_some_iff.1 hd).1
    obtain ⟨hstands, hchanges⟩ := symlink_stands m₁ i htext hshort
    have hdrawn := hentered.becomeLink (by
      rw [length_modify_concat]
      exact Nat.lt_succ_self i) (Set.notMem_empty i) hfresh hchanges
      (fun hpointers => hpointers hstands.ftype) (hfresh.symm ▸ hstands)
    rw [set_modify_concat hdlt] at hdrawn
    refine ⟨⟨n, ?_⟩, ?_, hvalid⟩
    · rw [Sketch.file_nodes_of_new hknown]
      exact hdrawn
    · rw [Sketch.file, if_pos hknown, ← h.hardlinks]
      exact hhard
  · obtain ⟨htwo, other, hother, hfile⟩ := h.valid.known hknown
    obtain ⟨hdrawn, hlinks⟩ := hgranted.namedAgain ho hd hzero hother hfile hrest
    refine ⟨⟨n, ?_⟩, ?_, hvalid⟩
    · rw [Sketch.file_nodes_of_known hknown]
      exact hdrawn
    · rw [Sketch.file, if_neg hknown]
      exact hlinks.trans h.hardlinks

/-! ## Directories -/

/-- What `writedirectory` writes to an inode. -/
theorem directory_stands (m : Memory) (i mode : Nat) (hc : c = 0) :
    Stands (setOiMode (setOiNlink (setOiSize (setOiFtype m (inodeAt i) ftypeDir) (inodeAt i) 0)
      (inodeAt i) 1) (inodeAt i) mode) c i (.dir 1 mode []) ∧
    ChangesOnly (Set.Ico (inodeAt i) (inodeAt i + 16)) m
      (setOiMode (setOiNlink (setOiSize (setOiFtype m (inodeAt i) ftypeDir) (inodeAt i) 0)
        (inodeAt i) 1) (inodeAt i) mode) := by
  subst hc
  refine ⟨⟨?_, ?_, ?_, load_field _ i 12 mode, ⟨le_rfl, le_rfl⟩,
    fun k hk => absurd hk (Nat.not_lt_zero k)⟩, ?_⟩
  · exact (load_field_of_ne (by decide)).trans ((load_field_of_ne (by decide)).trans
      ((load_field_of_ne (e := 0) (by decide)).trans (load_field m i 4 ftypeDir)))
  · exact (load_field_of_ne (by decide)).trans (load_field _ i 8 1)
  · refine (load32_store32_of_disjoint (by omega)).trans ?_
    exact (load32_store32_of_disjoint (by omega)).trans (load_field _ i 0 0)
  · exact (((field_changesOnly m i ftypeDir (e := 4) (by decide)).trans
      (setOiSize_changesOnly _ i 0)).trans
        (field_changesOnly _ i 1 (e := 8) (by decide))).trans
          (field_changesOnly _ i mode (e := 12) le_rfl)

theorem newDirectory_represents {mode' : Nat} (ho : Fitted o g) (h : Represents g s sk)
    (hd : sk.nodes[d]? = some (.dir links mode entries)) (hzero : 0 ∉ name)
    (hname : name ∉ entries.map Prod.snd)
    (hrun : newDirectory o (inodeAt d) name mode' s = some s') :
    s.nextinode = sk.nodes.length ∧ sk.nodes.length < g.ninodes ∧
      Represents g s' (sk.directory d name mode') := by
  obtain ⟨de, halloc, hrest⟩ := Option.bind_eq_some_iff.1 hrun
  obtain ⟨n, hgranted⟩ := h.granted ho hd halloc
  have hvalid : (sk.directory d name mode').Valid :=
    Sketch.directory_valid h.valid hd rfl (by rwa [entriesOf_some hd])
  obtain ⟨s₁, hinode, hend⟩ := Option.bind_eq_some_iff.1 hrest
  obtain ⟨hlt, rfl⟩ := allocinode_some ho hgranted.drawn hinode
  have hnext : de.writer.nextinode = sk.nodes.length := hgranted.drawn.count.symm
  dsimp only at hend
  rw [hnext, ho.inodePointer_eq hlt] at hend
  obtain rfl := Option.some.inj hend
  have hd' : (sk.nodes ++ [Node.reg 0 0 []])[d]? = some (.dir links mode entries) :=
    getElem?_concat hd
  have hentered := (hgranted.drawn.alloc hlt).enter hd' hgranted.room hgranted.place
    (hgranted.named hzero) h.length_lt
  have hdlt := (List.getElem?_eq_some_iff.1 hd).1
  have hnamed : ((sk.nodes ++ [Node.reg 0 0 []]).modify d
      (Node.named sk.nodes.length name))[d]? =
        some (Node.named sk.nodes.length name (.dir links mode entries)) := by
    rw [List.getElem?_modify_eq, hd']
    rfl
  have hlinked := hentered.relink hnamed
  rw [List.modify_modify_eq] at hlinked
  set i := sk.nodes.length with hi
  set m₁ := setOdIno de.writer.disk de.od i
  set m₂ := setOiNlink m₁ (inodeAt d) (oiNlink m₁ (inodeAt d) + 1)
  have hpointers := hlinked.hasPointers (modify_concat_last hdlt)
    (by decide : ftypeReg ≠ ftypeSymlink)
  have hfresh : n i = 0 := (hgranted.drawn.fresh i le_rfl hlt).1
  obtain ⟨hstands, hchanges⟩ := directory_stands m₂ i mode' hfresh
  have hdrawn := hlinked.field (by
    rw [length_modify_concat]
    exact Nat.lt_succ_self i) (Set.notMem_empty i) hchanges (fun _ => hpointers)
    hstands
  dsimp only at hdrawn
  rw [hnext] at hdrawn
  rw [set_modify_concat hdlt] at hdrawn
  refine ⟨?_, hlt, ⟨n, ?_⟩, ?_, hvalid⟩
  · exact hgranted.nextinode.symm.trans hnext
  · rw [Sketch.directory, List.modify_modify_eq]
    exact hdrawn
  · exact hgranted.hardlinks.trans h.hardlinks

end Cs111Labs.Ospfsformat
