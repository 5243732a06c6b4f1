import Cs111Labs.Ospfsformat.Storeblk

/-!
# Files on a disk that is being filled

The inodes in use are a list of files, each with its type, its link count and
what is in it.
-/

namespace Cs111Labs.Ospfsformat

open Foundation Memory Ospfs

variable {g : Geometry} {m m' : Memory} {P P' S skip : Set Nat} {n n' : Nat → Nat}
  {nextb a b d i j k c : Nat} {p q : Nat × Slot} {s s' : Writer} {bytes : List UInt8}
  {name text : Name}

/-! ## Files -/

inductive Node where
  | reg (links mode : Nat) (bytes : List UInt8)
  | dir (links mode : Nat) (entries : List (Nat × Name))
  | symlink (links : Nat) (text : Name)
  deriving DecidableEq

def Node.links : Node → Nat
  | reg links _ _ | dir links _ _ | symlink links _ => links

def Node.ftype : Node → Nat
  | reg _ _ _ => ftypeReg
  | dir _ _ _ => ftypeDir
  | symlink _ _ => ftypeSymlink

/-- The address of an entry of a directory, also of one that is not used yet. -/
def entryPlace (m : Memory) (d k : Nat) : Nat := blockAddress m d (128 * k)

/-- An entry of a directory, or a blank one. -/
def EntryIs (m : Memory) (od : Nat) : Option (Nat × Name) → Prop
  | none => odIno m od = 0
  | some (ino, name) => odIno m od = ino ∧ odName m od = name

/-- The contents of an inode with `c` blocks. -/
def Body (m : Memory) (c i : Nat) : Node → Prop
  | .reg _ mode bytes =>
      oiSize m (inodeAt i) = bytes.length ∧ load32 m (inodeAt i + 12) = mode % 2 ^ 32 ∧
        c = (bytes.length + 1023) / 1024 ∧
        ∀ k (hk : k < bytes.length), blockByte m i k = bytes[k]
  | .dir _ mode entries =>
      oiSize m (inodeAt i) = 1024 * c ∧ load32 m (inodeAt i + 12) = mode % 2 ^ 32 ∧
        (entries.length ≤ 8 * c ∧ 8 * (c - 1) ≤ entries.length) ∧
        ∀ k < 8 * c, EntryIs m (entryPlace m i k) entries[k]?
  | .symlink _ text =>
      oiSize m (inodeAt i) = text.length ∧ c = 0 ∧ text.length ≤ 51 ∧
        StringAt m (inodeAt i + 12) text

structure Stands (m : Memory) (c i : Nat) (node : Node) : Prop where
  ftype : oiFtype m (inodeAt i) = node.ftype
  nlink : oiNlink m (inodeAt i) = node.links % 2 ^ 32
  body : Body m c i node

/-- The places of files with these numbers of blocks. -/
def placesOf (g : Geometry) (n : Nat → Nat) : Nat × Slot → Prop := fun p =>
  p.1 < g.ninodes ∧ p.2.InUse (n p.1)

theorem EntryIs.congr {entry : Option (Nat × Name)} {od od' : Nat} (h : EntryIs m od entry)
    (hsame : ∀ d < 128, m' (od' + d) = m (od + d)) : EntryIs m' od' entry := by
  have hino : odIno m' od' = odIno m od := load32_congr fun d hd => hsame d (by omega)
  cases entry with
  | none => exact hino.trans h
  | some entry =>
      have hname : odName m' od' = odName m od := cstring_congr fun d hd => by
        rw [Nat.add_assoc, Nat.add_assoc]
        exact hsame (4 + d) (by omega)
      exact ⟨hino.trans h.1, hname.trans h.2⟩

/-! ## Bytes of a file -/

namespace Laid

variable {U : Nat × Slot → Prop}

theorem blockAddress_eq (h : Laid g m U P nextb) {off : Nat}
    (hU : U (i, Slot.ofIndex (off / 1024))) :
    blockAddress m i off =
      1024 * (diskTree g).target m (i, Slot.ofIndex (off / 1024)) + off % 1024 := by
  have hdata : g.IsData (blockNumber m i off) := h.isData hU
  rw [blockAddress, hdata.block]
  rfl

theorem mem_block (h : Laid g m U P nextb) {off : Nat}
    (hU : U (i, Slot.ofIndex (off / 1024))) {e : Nat} (he : off % 1024 + e < 1024) :
    blockAddress m i off + e ∈
      blockBytes ((diskTree g).target m (i, Slot.ofIndex (off / 1024))) := by
  rw [h.blockAddress_eq hU]
  simp only [blockBytes, Set.mem_Ico]
  omega

end Laid

theorem blockAddress_congr {off : Nat}
    (h : (Slot.ofIndex (off / 1024)).target m' (inodeAt i) =
      (Slot.ofIndex (off / 1024)).target m (inodeAt i)) :
    blockAddress m' i off = blockAddress m i off := by
  rw [blockAddress, blockAddress, blockNumber, h]
  rfl

/-- The bytes of files stay when the first fields of an inode change. -/
theorem Laid.field_bytes {U : Nat × Slot → Prop} (h : Laid g m U P nextb) (hi : i < g.ninodes)
    (hchanges : ChangesOnly (Set.Ico (inodeAt i) (inodeAt i + 16)) m m') {off e : Nat}
    (hU : U (j, Slot.ofIndex (off / 1024))) (he : off % 1024 + e < 1024) :
    m' (blockAddress m' j off + e) = m (blockAddress m j off + e) := by
  have htarget := h.spans.target_eq hchanges
    (fun q hq a ha => h.word_field (h.spans.inPlace q hq) hi ha) hU
  rw [blockAddress_congr htarget]
  refine hchanges _ fun hmem => not_mem_blockBytes_of_inode (h.isData hU) hi ?_ (h.mem_block hU he)
  simp only [inodeBytes, Set.mem_Ico] at *
  omega

/-- A file stays when neither its inode nor its blocks change. -/
theorem Stands.frame {node : Node} (h : Stands m c i node) (hc : c ≤ Slot.maxfileblks)
    {U : Nat × Slot → Prop} (hlaid : Laid g m U P nextb)
    (hU : ∀ t : Slot, t.InUse c → U (i, t))
    (hinode : ∀ a ∈ inodeBytes i, m' a = m a)
    (htarget : ∀ t : Slot, t.InUse c → t.target m' (inodeAt i) = t.target m (inodeAt i))
    (hblock : ∀ t : Slot, ¬ t.IsMeta → t.InUse c →
      ∀ a ∈ blockBytes (t.target m (inodeAt i)), m' a = m a) : Stands m' c i node := by
  have hload : ∀ e ≤ 60, load32 m' (inodeAt i + e) = load32 m (inodeAt i + e) :=
    fun e he => load32_congr fun x hx => hinode _ (by
      simp only [inodeBytes, Set.mem_Ico]
      omega)
  have hbyte : ∀ off e, off < 1024 * c → off % 1024 + e < 1024 →
      m' (blockAddress m' i off + e) = m (blockAddress m i off + e) := by
    intro off e hoff he
    have huse : (Slot.ofIndex (off / 1024)).InUse c := Slot.ofIndex_inUse (by omega) hc
    rw [blockAddress_congr (htarget _ huse)]
    exact hblock _ (Slot.ofIndex_not_isMeta _) huse _ (hlaid.mem_block (hU _ huse) he)
  refine ⟨(hload 4 (by decide)).trans h.ftype, (hload 8 (by decide)).trans h.nlink, ?_⟩
  have hsize : oiSize m' (inodeAt i) = oiSize m (inodeAt i) := hload 0 (by decide)
  cases node with
  | reg links mode bytes =>
      obtain ⟨hbody, hmode, hcount, hbytes⟩ := h.body
      refine ⟨hsize.trans hbody, (hload 12 (by decide)).trans hmode, hcount, fun k hk => ?_⟩
      rw [← hbytes k hk]
      exact hbyte k 0 (by omega) (by omega)
  | dir links mode entries =>
      obtain ⟨hbody, hmode, hcount, hentries⟩ := h.body
      refine ⟨hsize.trans hbody, (hload 12 (by decide)).trans hmode, hcount, fun k hk => ?_⟩
      exact (hentries k hk).congr fun e he => hbyte (128 * k) e (by omega) (by omega)
  | symlink links text =>
      obtain ⟨hbody, hcount, hlength, hstring⟩ := h.body
      refine ⟨hsize.trans hbody, hcount, hlength, hstring.frame fun e he => hinode _ ?_⟩
      simp only [inodeBytes, Set.mem_Ico]
      omega

/-! ## The next block -/

theorem withPath_placesOf (hi : i < g.ninodes) (hk : k < Slot.maxfileblks) (hn : n i = k) :
    withPath (placesOf g n) i k = placesOf g (Function.update n i (k + 1)) := by
  funext p
  refine propext ?_
  by_cases hpi : p.1 = i
  · simp only [withPath, placesOf, hpi, true_and, hi, Function.update_self, hn,
      Slot.inUse_succ hk]
  · simp only [withPath, placesOf, hpi, false_and, or_false, ne_eq, not_false_eq_true,
      Function.update_of_ne]

namespace NextBlock

variable {off e : Nat}

/-- The bytes before stay. -/
theorem oldBytes (h : NextBlock g (placesOf g n) P i b k s s')
    (hlaid : Laid g s.disk (placesOf g n) P s.nextb) (hi : i < g.ninodes) (hn : n i = k)
    (hoff : off < 1024 * k) (he : off % 1024 + e < 1024) :
    s'.disk (blockAddress s'.disk i off + e) = s.disk (blockAddress s.disk i off + e) := by
  subst hn
  have huse : placesOf g n (i, Slot.ofIndex (off / 1024)) :=
    ⟨hi, Slot.ofIndex_inUse (Nat.div_lt_of_lt_mul hoff) h.lt.le⟩
  rw [blockAddress_congr (h.points.kept _ huse).2]
  refine h.points.block hi (hlaid.isData huse) (hlaid.lt huse) ?_ (hlaid.mem_block huse he)
  intro p _ hmeta hU heq
  have hsame := hlaid.spans.injective _ _ hU huse heq
  subst hsame
  exact Slot.ofIndex_not_isMeta _ hmeta

/-- The bytes of the new block. -/
theorem newBytes (h : NextBlock g (placesOf g n) P i b k s s')
    (hlaid : Laid g s.disk (placesOf g n) P s.nextb) (hi : i < g.ninodes) (hb : b ∈ P)
    (hoff : off / 1024 = k) (he : off % 1024 + e < 1024) :
    s'.disk (blockAddress s'.disk i off + e) = s.disk (1024 * b + off % 1024 + e) := by
  have htarget : blockNumber s'.disk i off = b := by
    rw [blockNumber, hoff]
    exact h.target
  rw [blockAddress, htarget, (hlaid.pending b hb).block]
  refine h.points.block hi (hlaid.pending b hb) (hlaid.pending_lt hb) ?_ ?_
  · exact fun p _ _ hU => hlaid.ne_pending hb hU
  · simp only [blockBytes, Set.mem_Ico]
    omega

end NextBlock

/-! ## The invariant -/

/-- The inodes are those of `nodes`, without those in `skip`, with `n` blocks each. -/
structure Drawn (g : Geometry) (s : Writer) (n : Nat → Nat) (P skip : Set Nat)
    (nodes : List Node) : Prop where
  laid : Laid g s.disk (placesOf g n) P s.nextb
  count : nodes.length = s.nextinode
  le : nodes.length ≤ g.ninodes
  small : ∀ i, n i ≤ Slot.maxfileblks
  skipped : ∀ i ∈ skip, i < nodes.length
  stands : ∀ i node, i ∉ skip → nodes[i]? = some node → Stands s.disk (n i) i node
  fresh : ∀ i, nodes.length ≤ i → i < g.ninodes →
    n i = 0 ∧ ∀ a ∈ inodeBytes i, s.disk a = 0
  boot : ∀ a < 1024, s.disk a = 0
  bitmap : ∀ a ∈ blockBytes 2, s.disk a = 0xFF

namespace Drawn

variable {nodes : List Node} {node node' : Node}

theorem lt (h : Drawn g s n P skip nodes) (hnode : nodes[i]? = some node) : i < g.ninodes :=
  (List.getElem?_eq_some_iff.1 hnode).1.trans_le h.le

theorem not_skipped (h : Drawn g s n P skip nodes) (hi : nodes.length ≤ i) : i ∉ skip :=
  fun hmem => absurd (h.skipped i hmem) (not_lt.2 hi)

/-- A change beside the files. -/
theorem frame (h : Drawn g s n P skip nodes) (hchanges : ChangesOnly S s.disk m')
    (hlaid : Laid g m' (placesOf g n) P' nextb)
    (htarget : ∀ p, placesOf g n p → (diskTree g).target m' p = (diskTree g).target s.disk p)
    (hlow : ∀ a ∈ S, 3072 ≤ a)
    (hinode : ∀ j < g.ninodes, j ∉ skip → ∀ a ∈ inodeBytes j, a ∉ S)
    (hblock : ∀ p, placesOf g n p → p.1 ∉ skip → ¬ p.2.IsMeta →
      ∀ a ∈ blockBytes ((diskTree g).target s.disk p), a ∉ S) :
    Drawn g { s with disk := m', nextb := nextb } n P' skip nodes where
  laid := hlaid
  count := h.count
  le := h.le
  small := h.small
  skipped := h.skipped
  stands j node hj hnode := by
    have hlt := h.lt hnode
    refine (h.stands j node hj hnode).frame (h.small j) h.laid (fun t ht => ⟨hlt, ht⟩) ?_ ?_ ?_
    · exact fun a ha => hchanges a (hinode j hlt hj a ha)
    · exact fun t ht => htarget (j, t) ⟨hlt, ht⟩
    · exact fun t hmeta ht a ha => hchanges a (hblock (j, t) ⟨hlt, ht⟩ hj hmeta a ha)
  fresh j hj hlt := by
    obtain ⟨hzero, hbytes⟩ := h.fresh j hj hlt
    exact ⟨hzero, fun a ha =>
      (hchanges a (hinode j hlt (h.not_skipped hj) a ha)).trans (hbytes a ha)⟩
  boot a ha := (hchanges a fun hS => by
    have hle := hlow a hS
    omega).trans (h.boot a ha)
  bitmap a ha := (hchanges a fun hS => by
    have hle := hlow a hS
    simp only [blockBytes, Set.mem_Ico] at ha
    omega).trans (h.bitmap a ha)

/-- The contents of a file are given up. -/
theorem forget (h : Drawn g s n P skip nodes) (hi : i < nodes.length) :
    Drawn g s n P (insert i skip) nodes where
  laid := h.laid
  count := h.count
  le := h.le
  small := h.small
  skipped := by
    rintro j (rfl | hj)
    · exact hi
    · exact h.skipped j hj
  stands j node hj := h.stands j node fun hmem => hj (Set.mem_insert_of_mem i hmem)
  fresh := h.fresh
  boot := h.boot
  bitmap := h.bitmap

/-- A file has new contents. -/
theorem restore (h : Drawn g s n P skip nodes) (hstands : Stands s.disk (n i) i node) :
    Drawn g s n P (skip \ {i}) (nodes.set i node) where
  laid := h.laid
  count := by rw [List.length_set, h.count]
  le := by
    rw [List.length_set]
    exact h.le
  small := h.small
  skipped j hj := by
    rw [List.length_set]
    exact h.skipped j hj.1
  stands j other hj hother := by
    by_cases hji : j = i
    · subst hji
      have hlt := (List.getElem?_eq_some_iff.1 hother).1
      rw [List.length_set] at hlt
      rw [List.getElem?_set_self hlt] at hother
      exact Option.some.inj hother ▸ hstands
    · rw [List.getElem?_set_ne (Ne.symm hji)] at hother
      exact h.stands j other (fun hmem => hj ⟨hmem, hji⟩) hother
  fresh j hj := by
    rw [List.length_set] at hj
    exact h.fresh j hj
  boot := h.boot
  bitmap := h.bitmap

/-- What a file is, after a change to no other file. -/
theorem modify (h : Drawn g s' n P (insert i skip) nodes) (hskip : i ∉ skip)
    (hstands : Stands s'.disk (n i) i node) : Drawn g s' n P skip (nodes.set i node) := by
  have hrestore := h.restore hstands
  rwa [Set.insert_sdiff_self_of_notMem hskip] at hrestore

/-- The first fields of an inode change. -/
theorem fields (h : Drawn g s n P skip nodes) (hi : i ∈ skip)
    (hchanges : ChangesOnly (Set.Ico (inodeAt i) (inodeAt i + 16)) s.disk m')
    (hpointers : HasPointers m' i → HasPointers s.disk i) :
    Drawn g { s with disk := m' } n P skip nodes := by
  have hlt := (h.skipped i hi).trans_le h.le
  have hout : ∀ p, (diskTree g).InPlace (placesOf g n) p →
      ∀ a ∈ Set.Ico (inodeAt i) (inodeAt i + 16), a ∉ (diskTree g).word s.disk p :=
    fun p hp a ha => h.laid.word_field hp hlt ha
  have hinode : ∀ a ∈ Set.Ico (inodeAt i) (inodeAt i + 16), a ∈ inodeBytes i := fun a ha => by
    simp only [inodeBytes, Set.mem_Ico] at *
    omega
  refine h.frame hchanges ?_ ?_ ?_ ?_ ?_
  · refine h.laid.frame hchanges (fun j hj => ?_) fun p hp _ => hout p hp
    by_cases hji : j = i
    · exact hji ▸ hpointers
    · rw [HasPointers, HasPointers, show oiFtype m' (inodeAt j) = oiFtype s.disk (inodeAt j) from
        load_of_inode (hchanges.mono hinode) hji (by decide)]
      exact id
  · exact fun p hp => h.laid.spans.target_eq hchanges
      (fun q hq => hout q (h.laid.spans.inPlace q hq)) hp
  · intro a ha
    exact (Nat.le_add_right 3072 _).trans (Set.mem_Ico.1 ha).1
  · exact fun j _ hj a ha hmem => hj (mem_inodeBytes_unique ha (hinode a hmem) ▸ hi)
  · exact fun p hp _ _ a ha hmem =>
      not_mem_blockBytes_of_inode (h.laid.isData hp) hlt (hinode a hmem) ha

theorem field (h : Drawn g s n P skip nodes) (hi : i < nodes.length) (hskip : i ∉ skip)
    (hchanges : ChangesOnly (Set.Ico (inodeAt i) (inodeAt i + 16)) s.disk m')
    (hpointers : HasPointers m' i → HasPointers s.disk i)
    (hstands : Stands m' (n i) i node) :
    Drawn g { s with disk := m' } n P skip (nodes.set i node) :=
  ((h.forget hi).fields (Set.mem_insert i skip) hchanges hpointers).modify hskip hstands

/-- A new file becomes a symbolic link. -/
theorem becomeLink (h : Drawn g s n P skip nodes) (hi : i < nodes.length) (hskip : i ∉ skip)
    (hzero : n i = 0) (hchanges : ChangesOnly (inodeBytes i) s.disk m')
    (hpointers : ¬ HasPointers m' i) (hstands : Stands m' (n i) i node) :
    Drawn g { s with disk := m' } n P skip (nodes.set i node) := by
  have hlt := hi.trans_le h.le
  have hnone : ∀ p, placesOf g n p → p.1 ≠ i := fun p hp heq => by
    have huse := hp.2
    rw [heq, hzero] at huse
    exact Slot.not_inUse_zero huse
  have hout : ∀ p, (diskTree g).InPlace (placesOf g n) p → p.1 ≠ i →
      ∀ a ∈ inodeBytes i, a ∉ (diskTree g).word s.disk p := by
    intro p hp hne a ha hmem
    rcases word_cases h.laid.spans hp hmem with hroot | ⟨q, -, hq, -, hblock⟩
    · exact hne (mem_inodeBytes_unique (wordBytes_subset _ hroot) ha)
    · exact not_mem_blockBytes_of_inode (h.laid.isData hq) hlt ha hblock
  refine ((h.forget hi).frame hchanges ?_ ?_ ?_ ?_ ?_).modify hskip hstands
  · refine h.laid.frame hchanges (fun j hj => ?_) fun p hp hor => hout p hp ?_
    · by_cases hji : j = i
      · exact fun hlink => absurd (hji ▸ hlink) hpointers
      · rw [HasPointers, HasPointers, show oiFtype m' (inodeAt j) = oiFtype s.disk (inodeAt j)
          from load_of_inode hchanges hji (by decide)]
        exact id
    · rcases hor with hU | hlink
      · exact hnone p hU
      · exact fun heq => hpointers (heq ▸ hlink)
  · exact fun p hp => h.laid.spans.target_eq hchanges
      (fun q hq => hout q (h.laid.spans.inPlace q hq) (hnone q hq)) hp
  · intro a ha
    exact (Nat.le_add_right 3072 _).trans (Set.mem_Ico.1 ha).1
  · exact fun j _ hj a ha hmem =>
      hj (mem_inodeBytes_unique ha hmem ▸ Set.mem_insert i skip)
  · exact fun p hp _ _ a ha hmem =>
      not_mem_blockBytes_of_inode (h.laid.isData hp) hlt hmem ha

/-- The bytes of a block of data change. -/
theorem dataBlock (h : Drawn g s n P skip nodes) (hi : i < nodes.length) (hskip : i ∉ skip)
    {t : Slot} (ht : t.InUse (n i)) (hdata : ¬ t.IsMeta)
    (hchanges : ChangesOnly (blockBytes (t.target s.disk (inodeAt i))) s.disk m')
    (hstands : Stands m' (n i) i node) :
    Drawn g { s with disk := m' } n P skip (nodes.set i node) := by
  have hplace : placesOf g n (i, t) := ⟨hi.trans_le h.le, ht⟩
  have hblock : g.IsData (t.target s.disk (inodeAt i)) := h.laid.isData hplace
  have hfree : ∀ p, placesOf g n p → p.2.IsMeta →
      (diskTree g).target s.disk p ≠ t.target s.disk (inodeAt i) := by
    intro p hp hmeta heq
    have hsame := h.laid.spans.injective p (i, t) hp hplace heq
    subst hsame
    exact hdata hmeta
  refine ((h.forget hi).frame hchanges (h.laid.writeBlock hblock hfree hchanges)
    (fun p hp => h.laid.writeBlock_target hblock hfree hchanges hp) ?_ ?_ ?_).modify hskip hstands
  · intro a ha
    have hthree := hblock.three_lt
    exact (Nat.mul_le_mul_left 1024 hthree).trans (Set.mem_Ico.1 ha).1
  · exact fun j hj _ a ha => not_mem_blockBytes_of_inode hblock hj ha
  · intro p hp hp' _ a ha hmem
    by_cases heq : (diskTree g).target s.disk p = t.target s.disk (inodeAt i)
    · have hsame := congrArg Prod.fst (h.laid.spans.injective p (i, t) hp hplace heq)
      exact hp' (hsame ▸ Set.mem_insert p.1 skip)
    · exact not_mem_blockBytes_of_ne heq ha hmem

/-- The bytes of a block without a pointer change. -/
theorem pendingBlock (h : Drawn g s n P skip nodes) (hb : b ∈ P)
    (hchanges : ChangesOnly (blockBytes b) s.disk m') :
    Drawn g { s with disk := m' } n P skip nodes := by
  have hdata := h.laid.pending b hb
  have hfree : ∀ p, placesOf g n p → p.2.IsMeta → (diskTree g).target s.disk p ≠ b :=
    fun p hp _ => h.laid.ne_pending hb hp
  refine h.frame hchanges (h.laid.writeBlock hdata hfree hchanges)
    (fun p hp => h.laid.writeBlock_target hdata hfree hchanges hp) ?_ ?_ ?_
  · intro a ha
    have hthree := hdata.three_lt
    exact (Nat.mul_le_mul_left 1024 hthree).trans (Set.mem_Ico.1 ha).1
  · exact fun j hj _ a ha => not_mem_blockBytes_of_inode hdata hj ha
  · exact fun p hp _ _ a ha => not_mem_blockBytes_of_ne (h.laid.ne_pending hb hp) ha

/-- The next block is cleared. -/
theorem clear (h : Drawn g s n P skip nodes) (hlast : s.nextb < g.nblocks) :
    Drawn g { s with disk := eraseBlock s.disk s.nextb } n P skip nodes := by
  have hdata := h.laid.fresh hlast
  have hchanges : ChangesOnly (blockBytes s.nextb) s.disk (eraseBlock s.disk s.nextb) :=
    eraseBlock_changesOnly hdata
  have hfree : ∀ p, placesOf g n p → p.2.IsMeta → (diskTree g).target s.disk p ≠ s.nextb :=
    fun p hp _ => h.laid.ne_fresh le_rfl hp
  refine h.frame hchanges (h.laid.writeBlock hdata hfree hchanges)
    (fun p hp => h.laid.writeBlock_target hdata hfree hchanges hp) ?_ ?_ ?_
  · intro a ha
    have hthree := hdata.three_lt
    exact (Nat.mul_le_mul_left 1024 hthree).trans (Set.mem_Ico.1 ha).1
  · exact fun j hj _ a ha => not_mem_blockBytes_of_inode hdata hj ha
  · exact fun p hp _ _ a ha => not_mem_blockBytes_of_ne (h.laid.ne_fresh le_rfl hp) ha

/-- The next block is taken. -/
theorem take (h : Drawn g s n P skip nodes) (hlast : s.nextb < g.nblocks) :
    Drawn g { s with disk := eraseBlock s.disk s.nextb, nextb := s.nextb + 1 } n
      (insert s.nextb P) skip nodes :=
  { h.clear hlast with laid := h.laid.take hlast }

/-- A file gets its next block. -/
theorem grow (h : Drawn g s n P skip nodes) (hi : i ∈ skip) (hn : n i = k)
    (hnext : NextBlock g (placesOf g n) P i b k s s') :
    Drawn g s' (Function.update n i (k + 1)) (P \ {b}) skip nodes := by
  have hlt := (h.skipped i hi).trans_le h.le
  have hlaid := hnext.laid
  rw [withPath_placesOf hlt hnext.lt hn] at hlaid
  have hinode : ∀ j < g.ninodes, j ≠ i → ∀ a ∈ inodeBytes j, s'.disk a = s.disk a :=
    fun j hj hji a ha => hnext.points.inode h.laid hj ha fun heq => absurd heq hji
  have hlow : ∀ a < 3072, s'.disk a = s.disk a := by
    refine fun a ha => hnext.points.changes a ?_
    rintro ((hword | ⟨p, -, -, hU, hblock⟩) | ⟨c, -, hc, hblock⟩)
    · have hle := (Set.mem_Ico.1 hword).1
      simp only [inodeAt] at hle
      omega
    · have hthree := (h.laid.isData hU).three_lt
      have hle := (Set.mem_Ico.1 hblock).1
      omega
    · have hthree := hc.three_lt
      have hle := (Set.mem_Ico.1 hblock).1
      omega
  refine ⟨hlaid, h.count.trans hnext.nextinode.symm, h.le, fun j => ?_, h.skipped,
    fun j node hj hnode => ?_, fun j hj hjlt => ?_, fun a ha => ?_, fun a ha => ?_⟩
  · by_cases hji : j = i
    · subst hji
      rw [Function.update_self]
      exact hnext.lt
    · rw [Function.update_of_ne hji]
      exact h.small j
  · have hji : j ≠ i := fun heq => hj (heq ▸ hi)
    have hjlt := h.lt hnode
    rw [Function.update_of_ne hji]
    refine (h.stands j node hj hnode).frame (h.small j) h.laid (fun t ht => ⟨hjlt, ht⟩)
      (hinode j hjlt hji) (fun t ht => (hnext.points.kept (j, t) ⟨hjlt, ht⟩).2) ?_
    intro t _ ht a ha
    have hplace : placesOf g n (j, t) := ⟨hjlt, ht⟩
    refine hnext.points.block hlt (h.laid.isData hplace) (h.laid.lt hplace) ?_ ha
    intro p hp _ hU heq
    have hsame := congrArg Prod.fst (h.laid.spans.injective p (j, t) hU hplace heq)
    exact hji (hsame.symm.trans hp)
  · have hji : j ≠ i := fun heq => absurd (h.skipped i hi) (not_lt.2 (heq ▸ hj))
    obtain ⟨hzero, hbytes⟩ := h.fresh j hj hjlt
    rw [Function.update_of_ne hji]
    exact ⟨hzero, fun a ha => (hinode j hjlt hji a ha).trans (hbytes a ha)⟩
  · exact (hlow a (by omega)).trans (h.boot a ha)
  · have hhigh := (Set.mem_Ico.1 ha).2
    exact (hlow a (by omega)).trans (h.bitmap a ha)

/-- An inode that is not used yet. -/
theorem stands_zero (hzero : ∀ a ∈ inodeBytes i, m a = 0) : Stands m 0 i (.reg 0 0 []) := by
  have hload : ∀ e ≤ 60, load32 m (inodeAt i + e) = 0 := fun e he =>
    load32_eq_zero fun x hx => hzero _ (by
      simp only [inodeBytes, Set.mem_Ico]
      omega)
  exact ⟨hload 4 (by decide), hload 8 (by decide), hload 0 (by decide), hload 12 (by decide),
    rfl, fun k hk => absurd hk (Nat.not_lt_zero k)⟩

/-- The next inode is taken. -/
theorem alloc (h : Drawn g s n P skip nodes) (hlt : nodes.length < g.ninodes) :
    Drawn g { s with nextinode := s.nextinode + 1 } n P skip (nodes ++ [.reg 0 0 []]) where
  laid := h.laid
  count := by rw [List.length_append, List.length_singleton, h.count]
  le := by
    rw [List.length_append, List.length_singleton]
    exact hlt
  small := h.small
  skipped i hi := by
    rw [List.length_append]
    exact (h.skipped i hi).trans_le (Nat.le_add_right _ _)
  stands i node hi hnode := by
    rcases Nat.lt_or_ge i nodes.length with hold | hnew
    · rw [List.getElem?_append_left hold] at hnode
      exact h.stands i node hi hnode
    · rw [List.getElem?_append_right hnew, List.getElem?_singleton] at hnode
      split_ifs at hnode with heq
      obtain rfl := Option.some.inj hnode
      obtain rfl : i = nodes.length := by omega
      obtain ⟨hzero, hbytes⟩ := h.fresh nodes.length le_rfl hlt
      rw [hzero]
      exact stands_zero hbytes
  fresh i hi := by
    rw [List.length_append] at hi
    exact h.fresh i ((Nat.le_add_right _ _).trans hi)
  boot := h.boot
  bitmap := h.bitmap

end Drawn

end Cs111Labs.Ospfsformat
