import Cs111Labs.Ospfsformat.Nodes
import Mathlib.Data.Set.Card

/-!
# What the formatter makes of a directory tree

The files of the host become a list of files with numbered entries.  There are
no blocks and no addresses here.
-/

namespace Cs111Labs.Ospfsformat

open Foundation Ospfs
open Image (Digest Hardlink getHardlink addHardlink)

variable {nodes nodes' nodes'' : List Node} {node node' : Node} {d e i j ino links : Nat}
  {name : Name} {extra : List (Nat × Name)} {hostIno : BitVec 64} {tree : HostTree}

/-! ## Files -/

namespace Node

def entries : Node → List (Nat × Name)
  | dir _ _ entries => entries
  | _ => []

def IsDir (node : Node) : Prop := node.ftype = ftypeDir

instance : DecidablePred IsDir := fun _ => inferInstanceAs (Decidable (_ = _))

theorem not_isDir_reg (links mode : Nat) (bytes : List UInt8) : ¬ (reg links mode bytes).IsDir :=
  (by decide : ftypeReg ≠ ftypeDir)

theorem not_isDir_symlink (links : Nat) (text : Name) : ¬ (symlink links text).IsDir :=
  (by decide : ftypeSymlink ≠ ftypeDir)

/-- The file with another link count and more entries. -/
def extend (links : Nat) (extra : List (Nat × Name)) : Node → Node
  | reg _ mode bytes => reg links mode bytes
  | dir _ mode entries => dir links mode (entries ++ extra)
  | symlink _ text => symlink links text

def named (ino : Nat) (name : Name) (node : Node) : Node := node.extend node.links [(ino, name)]

def linked (node : Node) : Node := node.extend (node.links + 1) []

@[simp] theorem extend_extend (links links' : Nat) (extra extra' : List (Nat × Name)) :
    (node.extend links extra).extend links' extra' = node.extend links' (extra ++ extra') := by
  cases node <;> simp [extend]

@[simp] theorem extend_links : (node.extend links extra).links = links := by
  cases node <;> rfl

@[simp] theorem extend_self : node.extend node.links [] = node := by
  cases node <;> simp [extend, Node.links]

@[simp] theorem extend_isDir : (node.extend links extra).IsDir ↔ node.IsDir := by
  cases node <;> rfl

theorem extend_entries (h : node.IsDir ∨ extra = []) :
    (node.extend links extra).entries = node.entries ++ extra := by
  cases node with
  | dir _ _ _ => rfl
  | reg _ _ _ =>
      obtain rfl := h.resolve_left (not_isDir_reg _ _ _)
      rfl
  | symlink _ _ =>
      obtain rfl := h.resolve_left (not_isDir_symlink _ _)
      rfl

end Node

def entriesOf (nodes : List Node) (d : Nat) : List (Nat × Name) :=
  ((nodes[d]?).map Node.entries).getD []

theorem entriesOf_some (h : nodes[d]? = some node) : entriesOf nodes d = node.entries := by
  rw [entriesOf, h]
  rfl

theorem entriesOf_none (h : nodes[d]? = none) : entriesOf nodes d = [] := by
  rw [entriesOf, h]
  rfl

/-! ## Operations -/

structure Sketch where
  nodes : List Node
  hardlinks : List Hardlink

namespace Sketch

/-- The inode that a file of the host has already, or 0. -/
def known (hostIno : BitVec 64) (sk : Sketch) : Nat :=
  if hostIno ≠ 0 then (getHardlink false sk.hardlinks hostIno none).toNat else 0

def file (d : Nat) (name : Name) (hostIno : BitVec 64) (node : Node) (sk : Sketch) : Sketch :=
  if sk.known hostIno = 0 then
    { nodes := (sk.nodes ++ [node]).modify d (Node.named sk.nodes.length name)
      hardlinks :=
        if hostIno ≠ 0 then
          addHardlink false sk.hardlinks hostIno (BitVec.ofNat 32 sk.nodes.length) none
        else sk.hardlinks }
  else
    let nodes := sk.nodes.modify d (Node.named (sk.known hostIno) name)
    { sk with nodes := nodes.modify (sk.known hostIno) Node.linked }

def directory (d : Nat) (name : Name) (mode : Nat) (sk : Sketch) : Sketch :=
  let nodes := (sk.nodes ++ [Node.dir 1 mode []]).modify d (Node.named sk.nodes.length name)
  { sk with nodes := nodes.modify d Node.linked }

def entries (d : Nat) : HostTree → Sketch → Sketch
  | .nil, sk => sk
  | .reg name hostIno mode bytes rest, sk =>
      entries d rest (sk.file d name hostIno (.reg 1 mode bytes))
  | .dir name mode tree rest, sk =>
      if name ∈ skippedNames then entries d rest sk
      else entries d rest (entries sk.nodes.length tree (sk.directory d name mode))
  | .symlink name hostIno text rest, sk =>
      entries d rest
        (if text.length > 51 then sk else sk.file d name hostIno (.symlink 1 text))

end Sketch

/-! ## One more entry -/

/-- The directory `d` has one more entry, for a new file or one that is there. -/
structure Entered (d ino : Nat) (name : Name) (nodes nodes' : List Node) : Prop where
  length : nodes'.length = nodes.length ∨ nodes'.length = nodes.length + 1
  old : ∀ i (node : Node), nodes[i]? = some node → ∃ links,
    nodes'[i]? = some (node.extend links (if i = d then [(ino, name)] else [])) ∧
      if node.IsDir then
        node.links ≤ links ∧ links + nodes.length ≤ node.links + nodes'.length
      else links = node.links + if i = ino then 1 else 0
  new : ∀ i (node : Node), nodes[i]? = none → nodes'[i]? = some node →
    i = ino ∧ node.links = 1 ∧ node.entries = []
  lt : ino < nodes'.length

theorem modify_getElem? (nodes : List Node) (f : Node → Node) (i j : Nat) :
    (nodes.modify i f)[j]? = (nodes[j]?).map fun node => if i = j then f node else node :=
  List.getElem?_modify f i nodes j

theorem getElem?_concat (h : nodes[i]? = some node) : (nodes ++ [node'])[i]? = some node := by
  rw [List.getElem?_append_left (List.getElem?_eq_some_iff.1 h).1]
  exact h

theorem concat_new (hnone : nodes[i]? = none) (h : (nodes ++ [node'])[i]? = some node) :
    i = nodes.length ∧ node = node' := by
  have hle := List.getElem?_eq_none_iff.1 hnone
  have hlt := (List.getElem?_eq_some_iff.1 h).1
  rw [List.length_append, List.length_singleton] at hlt
  obtain rfl : i = nodes.length := by omega
  rw [List.getElem?_concat_length] at h
  exact ⟨rfl, (Option.some.inj h).symm⟩

/-- A new file. -/
theorem entered_file (hd : d < nodes.length) (hlinks : node.links = 1)
    (hentries : node.entries = []) :
    Entered d nodes.length name nodes
      ((nodes ++ [node]).modify d (Node.named nodes.length name)) where
  length := .inr (by rw [List.length_modify, List.length_append, List.length_singleton])
  old i old hi := by
    have hlt := (List.getElem?_eq_some_iff.1 hi).1
    refine ⟨old.links, ?_, ?_⟩
    · rw [modify_getElem?, getElem?_concat hi, Option.map_some]
      by_cases hid : i = d
      · rw [if_pos hid.symm, if_pos hid, Node.named]
      · rw [if_neg (Ne.symm hid), if_neg hid, Node.extend_self]
    · split_ifs with hdir hino
      · rw [List.length_modify, List.length_append]
        omega
      · omega
      · rfl
  new i new hnone hi := by
    have hne : d ≠ i := by
      rintro rfl
      exact absurd (List.getElem?_eq_none_iff.1 hnone) (not_le.2 hd)
    rw [List.getElem?_modify_ne _ _ hne] at hi
    obtain ⟨rfl, rfl⟩ := concat_new hnone hi
    exact ⟨rfl, hlinks, hentries⟩
  lt := by
    rw [List.length_modify, List.length_append]
    exact Nat.lt_succ_self _

/-- Another name for a file. -/
theorem entered_link (hd : nodes[d]? = some node) (hdir : node.IsDir)
    (hino : nodes[ino]? = some node') (hfile : ¬ node'.IsDir) :
    Entered d ino name nodes ((nodes.modify d (Node.named ino name)).modify ino Node.linked) where
  length := .inl (by rw [List.length_modify, List.length_modify])
  old i old hi := by
    rw [modify_getElem?, modify_getElem?, hi, Option.map_some, Option.map_some]
    by_cases hid : i = d
    · subst hid
      obtain rfl := Option.some.inj (hi.symm.trans hd)
      have hne : ino ≠ i := by
        rintro rfl
        exact hfile (Option.some.inj (hi.symm.trans hino) ▸ hdir)
      refine ⟨old.links, ?_, ?_⟩
      · rw [if_pos rfl, if_neg hne, if_pos rfl, Node.named]
      · rw [if_pos hdir, List.length_modify, List.length_modify]
        omega
    · rw [if_neg (Ne.symm hid), if_neg hid]
      by_cases hii : i = ino
      · subst hii
        obtain rfl := Option.some.inj (hi.symm.trans hino)
        refine ⟨old.links + 1, ?_, ?_⟩
        · rw [if_pos rfl, Node.linked]
        · rw [if_neg hfile, if_pos rfl]
      · refine ⟨old.links, ?_, ?_⟩
        · rw [if_neg (Ne.symm hii), Node.extend_self]
        · rw [if_neg hii, List.length_modify, List.length_modify]
          split_ifs
          · omega
          · rfl
  new i new hnone hi := by
    rw [modify_getElem?, modify_getElem?, hnone] at hi
    cases hi
  lt := by
    rw [List.length_modify, List.length_modify]
    exact (List.getElem?_eq_some_iff.1 hino).1

/-- A new directory. -/
theorem entered_directory {mode : Nat} (hd : nodes[d]? = some node) (hdir : node.IsDir) :
    Entered d nodes.length name nodes
      (((nodes ++ [Node.dir 1 mode []]).modify d (Node.named nodes.length name)).modify d
        Node.linked) where
  length := .inr (by
    rw [List.length_modify, List.length_modify, List.length_append, List.length_singleton])
  old i old hi := by
    have hlt := (List.getElem?_eq_some_iff.1 hi).1
    rw [modify_getElem?, modify_getElem?, getElem?_concat hi, Option.map_some, Option.map_some]
    by_cases hid : i = d
    · subst hid
      obtain rfl := Option.some.inj (hi.symm.trans hd)
      refine ⟨old.links + 1, ?_, ?_⟩
      · rw [if_pos rfl, if_pos rfl, if_pos rfl, Node.named, Node.linked, Node.extend_extend,
          Node.extend_links, List.append_nil]
      · rw [if_pos hdir, List.length_modify, List.length_modify, List.length_append]
        dsimp only [List.length_singleton]
        omega
    · refine ⟨old.links, ?_, ?_⟩
      · rw [if_neg (Ne.symm hid), if_neg (Ne.symm hid), if_neg hid, Node.extend_self]
      · rw [List.length_modify, List.length_modify, List.length_append]
        split_ifs
        · omega
        · omega
        · rfl
  new i new hnone hi := by
    have hne : d ≠ i := by
      rintro rfl
      rw [hd] at hnone
      cases hnone
    rw [List.getElem?_modify_ne _ _ hne, List.getElem?_modify_ne _ _ hne] at hi
    obtain ⟨rfl, rfl⟩ := concat_new hnone hi
    exact ⟨rfl, rfl, rfl⟩
  lt := by
    rw [List.length_modify, List.length_modify, List.length_append]
    exact Nat.lt_succ_self _

namespace Entered

theorem entriesOf_eq (h : Entered d ino name nodes nodes') (hd : nodes[d]? = some node)
    (hdir : node.IsDir) (j : Nat) :
    entriesOf nodes' j = entriesOf nodes j ++ if j = d then [(ino, name)] else [] := by
  cases hj : nodes[j]? with
  | none =>
      have hne : j ≠ d := by
        rintro rfl
        rw [hd] at hj
        cases hj
      rw [if_neg hne, List.append_nil, entriesOf_none hj]
      cases hj' : nodes'[j]? with
      | none => exact entriesOf_none hj'
      | some new => exact (entriesOf_some hj').trans (h.new j new hj hj').2.2
  | some old =>
      obtain ⟨links, hj', -⟩ := h.old j old hj
      rw [entriesOf_some hj', entriesOf_some hj]
      apply Node.extend_entries
      by_cases hjd : j = d
      · subst hjd
        exact .inl (Option.some.inj (hj.symm.trans hd) ▸ hdir)
      · exact .inr (if_neg hjd)

end Entered

/-! ## Names of a file -/

/-- The places of the entries for a file. -/
def places (nodes : List Node) (i : Nat) : Set (Nat × Nat) :=
  {p | ∃ name, (entriesOf nodes p.1)[p.2]? = some (i, name)}

theorem places_finite (nodes : List Node) (i : Nat) : (places nodes i).Finite := by
  have hall : (⋃ d ∈ Set.Iio nodes.length,
      (fun k => (d, k)) '' Set.Iio (entriesOf nodes d).length).Finite :=
    (Set.finite_Iio _).biUnion fun d _ => (Set.finite_Iio _).image _
  refine hall.subset ?_
  rintro ⟨d, k⟩ ⟨name, hname⟩
  have hk := (List.getElem?_eq_some_iff.1 hname).1
  simp only [Set.mem_iUnion, Set.mem_image, Set.mem_Iio]
  refine ⟨d, ?_, k, hk, rfl⟩
  by_contra hge
  rw [entriesOf_none (List.getElem?_eq_none (not_lt.1 hge))] at hk
  exact Nat.not_lt_zero _ hk

theorem Entered.places_eq (h : Entered d ino name nodes nodes') (hd : nodes[d]? = some node)
    (hdir : node.IsDir) (i : Nat) :
    places nodes' i = if i = ino then insert (d, (entriesOf nodes d).length) (places nodes i)
      else places nodes i := by
  ext ⟨e, k⟩
  have hsplit : (e, k) ∈ places nodes' i ↔
      (e, k) ∈ places nodes i ∨ e = d ∧ k = (entriesOf nodes d).length ∧ i = ino := by
    simp only [places, Set.mem_ofPred_eq, h.entriesOf_eq hd hdir]
    rcases Nat.lt_or_ge k (entriesOf nodes e).length with hlt | hge
    · rw [List.getElem?_append_left hlt]
      refine ⟨.inl, fun hor => hor.resolve_right ?_⟩
      rintro ⟨rfl, rfl, -⟩
      exact lt_irrefl _ hlt
    · rw [List.getElem?_append_right hge, List.getElem?_eq_none hge]
      constructor
      · rintro ⟨other, hother⟩
        split_ifs at hother with hed
        · rw [List.getElem?_singleton] at hother
          split_ifs at hother with hk
          obtain ⟨rfl, rfl⟩ := Prod.mk.inj (Option.some.inj hother)
          subst hed
          exact .inr ⟨rfl, by omega, rfl⟩
        · cases hother
      · rintro (⟨other, hother⟩ | ⟨rfl, rfl, rfl⟩)
        · cases hother
        · refine ⟨name, ?_⟩
          rw [if_pos rfl, Nat.sub_self]
          rfl
  rw [hsplit]
  split_ifs with hino
  · rw [Set.mem_insert_iff, Prod.mk.injEq, or_comm]
    simp only [hino, and_true]
  · simp only [hino, and_false, or_false]

/-! ## The invariant -/

structure Sketch.Valid (sk : Sketch) : Prop where
  front : sk.nodes[0]? = some (.reg 1 0 [])
  root : ∃ links mode entries, sk.nodes[1]? = some (.dir links mode entries)
  targets : ∀ d, ∀ entry ∈ entriesOf sk.nodes d, 2 ≤ entry.1 ∧ entry.1 < sk.nodes.length
  names : ∀ d, ((entriesOf sk.nodes d).map Prod.snd).Nodup
  links : ∀ (i : Nat) (node : Node), 2 ≤ i → sk.nodes[i]? = some node → ¬ node.IsDir →
    node.links = (places sk.nodes i).ncard
  dirLinks : ∀ (i : Nat) (node : Node), sk.nodes[i]? = some node → node.IsDir →
    1 ≤ node.links ∧ node.links ≤ sk.nodes.length
  hardlinks : ∀ h ∈ sk.hardlinks, 2 ≤ (h.ospIno.setWidth 32).toNat ∧
    ∃ node, sk.nodes[(h.ospIno.setWidth 32).toNat]? = some node ∧ ¬ node.IsDir

theorem Entered.valid {sk sk' : Sketch} (h : Entered d ino name sk.nodes sk'.nodes)
    (hsk : sk.Valid) (hd : sk.nodes[d]? = some node)
    (hdir : node.IsDir) (hino : 2 ≤ ino) (hname : name ∉ (entriesOf sk.nodes d).map Prod.snd)
    (hhard : ∀ cur ∈ sk'.hardlinks, 2 ≤ (cur.ospIno.setWidth 32).toNat ∧
      ∃ node, sk'.nodes[(cur.ospIno.setWidth 32).toNat]? = some node ∧ ¬ node.IsDir) :
    sk'.Valid := by
  have hlength : sk.nodes.length ≤ sk'.nodes.length := by
    rcases h.length with heq | heq <;> omega
  have hentries := h.entriesOf_eq hd hdir
  refine ⟨?_, ?_, ?_, ?_, ?_, ?_, hhard⟩
  · obtain ⟨links, hnode, hlinks⟩ := h.old 0 _ hsk.front
    have hne : 0 ≠ d := by
      rintro rfl
      obtain rfl := Option.some.inj (hsk.front.symm.trans hd)
      exact Node.not_isDir_reg _ _ _ hdir
    rw [if_neg (Node.not_isDir_reg 1 0 []), if_neg (by omega)] at hlinks
    rw [hlinks, if_neg hne] at hnode
    exact hnode
  · obtain ⟨links, mode, entries, hroot⟩ := hsk.root
    obtain ⟨links', hnode, -⟩ := h.old 1 _ hroot
    exact ⟨links', mode, _, hnode⟩
  · intro e entry hentry
    rw [hentries, List.mem_append] at hentry
    rcases hentry with hold | hnew
    · exact ⟨(hsk.targets e entry hold).1, (hsk.targets e entry hold).2.trans_le hlength⟩
    · split_ifs at hnew
      · obtain rfl := List.mem_singleton.1 hnew
        exact ⟨hino, h.lt⟩
      · cases hnew
  · intro e
    rw [hentries]
    split_ifs with hed
    · subst hed
      rw [List.map_append, List.map_singleton, List.nodup_append]
      refine ⟨hsk.names e, List.nodup_singleton _, fun x hx y hy => ?_⟩
      rw [List.mem_singleton.1 hy]
      rintro rfl
      exact hname hx
    · rw [List.append_nil]
      exact hsk.names e
  · intro i new hi hnew hfile
    rw [h.places_eq hd hdir]
    cases hold : sk.nodes[i]? with
    | none =>
        obtain ⟨rfl, hone, -⟩ := h.new i new hold hnew
        have hempty : places sk.nodes i = ∅ := by
          refine Set.eq_empty_of_forall_notMem ?_
          rintro ⟨e, k⟩ ⟨other, hother⟩
          have hlt := (hsk.targets e _ (List.mem_of_getElem? hother)).2
          exact absurd (List.getElem?_eq_none_iff.1 hold) (not_le.2 hlt)
        rw [if_pos rfl, hempty, hone, insert_empty_eq, Set.ncard_singleton]
    | some old =>
        obtain ⟨links, hnode, hlinks⟩ := h.old i old hold
        obtain rfl := Option.some.inj (hnode.symm.trans hnew)
        rw [Node.extend_isDir] at hfile
        rw [if_neg hfile] at hlinks
        rw [Node.extend_links, hlinks, hsk.links i old hi hold hfile]
        split_ifs with hii
        · refine (Set.ncard_insert_of_notMem ?_ (places_finite _ _)).symm
          rintro ⟨other, hother⟩
          exact lt_irrefl _ (List.getElem?_eq_some_iff.1 hother).1
        · rfl
  · intro i new hnew hnewDir
    cases hold : sk.nodes[i]? with
    | none =>
        obtain ⟨rfl, hone, -⟩ := h.new i new hold hnew
        have hlt := h.lt
        omega
    | some old =>
        obtain ⟨links, hnode, hlinks⟩ := h.old i old hold
        obtain rfl := Option.some.inj (hnode.symm.trans hnew)
        rw [Node.extend_isDir] at hnewDir
        rw [if_pos hnewDir] at hlinks
        obtain ⟨hone, hle⟩ := hsk.dirLinks i old hold hnewDir
        rw [Node.extend_links]
        omega

/-! ## Hard links -/

theorem getHardlink_mem {hardlinks : List Hardlink}
    (h : getHardlink false hardlinks hostIno none ≠ 0) :
    ∃ cur ∈ hardlinks, cur.hostIno.setWidth 64 = hostIno ∧
      getHardlink false hardlinks hostIno none = cur.ospIno.setWidth 32 := by
  induction hardlinks with
  | nil => exact absurd rfl h
  | cons cur next ih =>
      by_cases hhit : hostIno ≠ 0 ∧ cur.hostIno.setWidth 64 = hostIno
      · refine ⟨cur, List.mem_cons_self, hhit.2, ?_⟩
        rw [getHardlink, if_pos (.inl hhit)]
      · have hmiss : ¬ (hostIno ≠ 0 ∧ cur.hostIno.setWidth 64 = hostIno ∨
            false ∧ (none : Option Digest) = some cur.md5Digest) :=
          not_or.2 ⟨hhit, fun h => Bool.false_ne_true h.1⟩
        rw [getHardlink, if_neg hmiss] at h ⊢
        obtain ⟨found, hfound, hfacts⟩ := ih h
        exact ⟨found, List.mem_cons_of_mem _ hfound, hfacts⟩

namespace Sketch

variable {sk : Sketch}

theorem known_mem (h : sk.known hostIno ≠ 0) :
    hostIno ≠ 0 ∧ ∃ cur ∈ sk.hardlinks, cur.hostIno.setWidth 64 = hostIno ∧
      sk.known hostIno = (cur.ospIno.setWidth 32).toNat := by
  unfold known at h ⊢
  split_ifs at h ⊢ with hhost
  · obtain ⟨cur, hcur, hsame, heq⟩ := getHardlink_mem fun hzero => h (by rw [hzero]; rfl)
    exact ⟨hhost, cur, hcur, hsame, congrArg BitVec.toNat heq⟩
  · exact absurd rfl h

theorem Valid.length (hsk : sk.Valid) : 2 ≤ sk.nodes.length := by
  obtain ⟨links, mode, entries, hroot⟩ := hsk.root
  exact (List.getElem?_eq_some_iff.1 hroot).1

theorem Valid.known (hsk : sk.Valid) (h : sk.known hostIno ≠ 0) :
    2 ≤ sk.known hostIno ∧ ∃ node, sk.nodes[sk.known hostIno]? = some node ∧ ¬ node.IsDir := by
  obtain ⟨-, cur, hcur, -, heq⟩ := known_mem h
  rw [heq]
  exact hsk.hardlinks cur hcur

/-- The inode that the entry of a file gets. -/
def fileIno (hostIno : BitVec 64) (sk : Sketch) : Nat :=
  if sk.known hostIno = 0 then sk.nodes.length else sk.known hostIno

theorem file_nodes_of_new (h : sk.known hostIno = 0) :
    (sk.file d name hostIno node).nodes =
      (sk.nodes ++ [node]).modify d (Node.named sk.nodes.length name) := by
  rw [file, if_pos h]

theorem file_nodes_of_known (h : sk.known hostIno ≠ 0) :
    (sk.file d name hostIno node).nodes =
      (sk.nodes.modify d (Node.named (sk.known hostIno) name)).modify (sk.known hostIno)
        Node.linked := by
  rw [file, if_neg h]

theorem file_entered (hsk : sk.Valid) (hd : sk.nodes[d]? = some node') (hdir : node'.IsDir)
    (hlinks : node.links = 1) (hentries : node.entries = []) :
    Entered d (sk.fileIno hostIno) name sk.nodes (sk.file d name hostIno node).nodes := by
  by_cases hknown : sk.known hostIno = 0
  · rw [file_nodes_of_new hknown, fileIno, if_pos hknown]
    exact entered_file (List.getElem?_eq_some_iff.1 hd).1 hlinks hentries
  · obtain ⟨-, other, hother, hfile⟩ := hsk.known hknown
    rw [file_nodes_of_known hknown, fileIno, if_neg hknown]
    exact entered_link hd hdir hother hfile

theorem two_le_fileIno (hsk : sk.Valid) (hostIno : BitVec 64) : 2 ≤ sk.fileIno hostIno := by
  unfold fileIno
  split_ifs with hknown
  · exact hsk.length
  · exact (hsk.known hknown).1

theorem Entered.keepsFile (h : Entered d ino name nodes nodes') (hi : nodes[i]? = some node)
    (hfile : ¬ node.IsDir) : ∃ node, nodes'[i]? = some node ∧ ¬ node.IsDir := by
  obtain ⟨links, hnode, -⟩ := h.old i node hi
  exact ⟨_, hnode, by rwa [Node.extend_isDir]⟩

theorem file_valid (hsk : sk.Valid) (hd : sk.nodes[d]? = some node') (hdir : node'.IsDir)
    (hname : name ∉ (entriesOf sk.nodes d).map Prod.snd) (hlinks : node.links = 1)
    (hentries : node.entries = []) (hfile : ¬ node.IsDir) (hbound : sk.nodes.length < 2 ^ 32) :
    (sk.file d name hostIno node).Valid := by
  have hentered : Entered d (sk.fileIno hostIno) name sk.nodes
      (sk.file d name hostIno node).nodes := file_entered hsk hd hdir hlinks hentries
  refine hentered.valid hsk hd hdir (two_le_fileIno hsk hostIno) hname fun cur hcur => ?_
  have hold : ∀ cur ∈ sk.hardlinks, 2 ≤ (cur.ospIno.setWidth 32).toNat ∧
      ∃ other, (sk.file d name hostIno node).nodes[(cur.ospIno.setWidth 32).toNat]? =
        some other ∧ ¬ other.IsDir := fun cur hcur => by
    obtain ⟨htwo, other, hother, hotherFile⟩ := hsk.hardlinks cur hcur
    exact ⟨htwo, Entered.keepsFile hentered hother hotherFile⟩
  by_cases hknown : sk.known hostIno = 0
  · have hne : d ≠ sk.nodes.length := (List.getElem?_eq_some_iff.1 hd).1.ne
    have hnew : (sk.file d name hostIno node).nodes[sk.nodes.length]? = some node := by
      rw [file_nodes_of_new hknown, List.getElem?_modify_ne _ _ hne, List.getElem?_concat_length]
    have hlist : (sk.file d name hostIno node).hardlinks = if hostIno ≠ 0 then
        addHardlink false sk.hardlinks hostIno (BitVec.ofNat 32 sk.nodes.length) none
        else sk.hardlinks := by
      rw [file, if_pos hknown]
    rw [hlist] at hcur
    split_ifs at hcur with hhost
    · rw [addHardlink, List.mem_cons] at hcur
      rcases hcur with rfl | hcur
      · have hnumber : (((BitVec.ofNat 32 sk.nodes.length).setWidth 64).setWidth 32).toNat =
            sk.nodes.length := by
          rw [BitVec.setWidth_setWidth_of_le _ (by decide), BitVec.setWidth_eq,
            BitVec.toNat_ofNat]
          exact Nat.mod_eq_of_lt hbound
        dsimp only
        rw [hnumber]
        exact ⟨hsk.length, node, hnew, hfile⟩
      · exact hold cur hcur
    · exact hold cur hcur
  · have hlist : (sk.file d name hostIno node).hardlinks = sk.hardlinks := by
      rw [file, if_neg hknown]
    rw [hlist] at hcur
    exact hold cur hcur

theorem directory_entered {mode : Nat} (hd : sk.nodes[d]? = some node) (hdir : node.IsDir) :
    Entered d sk.nodes.length name sk.nodes (sk.directory d name mode).nodes :=
  entered_directory hd hdir

theorem directory_valid {mode : Nat} (hsk : sk.Valid) (hd : sk.nodes[d]? = some node)
    (hdir : node.IsDir) (hname : name ∉ (entriesOf sk.nodes d).map Prod.snd) :
    (sk.directory d name mode).Valid := by
  have hentered : Entered d sk.nodes.length name sk.nodes (sk.directory d name mode).nodes :=
    directory_entered hd hdir
  refine hentered.valid hsk hd hdir hsk.length hname fun cur hcur => ?_
  obtain ⟨htwo, other, hother, hfile⟩ := hsk.hardlinks cur hcur
  exact ⟨htwo, Entered.keepsFile hentered hother hfile⟩

end Sketch

end Cs111Labs.Ospfsformat
