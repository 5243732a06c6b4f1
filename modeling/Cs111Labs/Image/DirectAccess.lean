import Cs111Labs.Image.BlockCache

/-!
# The block cache and direct access to the disk

A client that takes blocks, changes them while it holds them and puts them back
sees the same with the cache as with a disk on which every change is made at
once.
-/

namespace Cs111Labs.Image

open Foundation

variable {nblocks : Nat}

/-! ## Clients -/

/-- The `k`-th block that is held, the newest first, is changed or put back. -/
inductive Op where
  | getblk (bno : Nat) (clr : Bool) (type : BlockType)
  | modify (k : Nat) (u : Content)
  | putblk (k : Nat)

/-- The formatter and the pointers that its callers hold. -/
structure Client where
  formatter : Formatter
  held : List Slot

/-- `getblk` also gives the contents that its caller finds. -/
def Client.step (nblocks : Nat) : Op → Client → Option (Option Content × Client)
  | .getblk bno clr type, c =>
      (Image.getblk nblocks bno clr type c.formatter).map fun (i, s) =>
        (some (s.cache i).u, ⟨s, i :: c.held⟩)
  | .modify k u, c =>
      c.held[k]?.map fun i =>
        (none, { c with formatter :=
          c.formatter.setBlock i { c.formatter.cache i with u := u } })
  | .putblk k, c =>
      c.held[k]?.map fun i =>
        (none, ⟨Image.putblk i c.formatter, c.held.eraseIdx k⟩)

theorem Client.step_modify (c : Client) {k : Nat} {i : Slot}
    (hk : c.held[k]? = some i) (u : Content) :
    c.step nblocks (.modify k u) =
      some (none, { c with
        formatter :=
          c.formatter.setBlock i { c.formatter.cache i with u := u } }) := by
  rw [Client.step, hk, Option.map_some]

theorem Client.step_putblk (c : Client) {k : Nat} {i : Slot}
    (hk : c.held[k]? = some i) :
    c.step nblocks (.putblk k) =
      some (none, ⟨Image.putblk i c.formatter, c.held.eraseIdx k⟩) := by
  rw [Client.step, hk, Option.map_some]

/-- A block that is held, with the type it was taken with. -/
structure Hold where
  bno : Nat
  type : BlockType
  deriving DecidableEq

/-- The contents of the blocks, and the blocks that are held. -/
structure Direct where
  contents : Nat → Content
  held : List Hold

/-- Block numbers are in range, the types of a block that is held agree, and
at most sixteen blocks are held. -/
def Direct.Allows (nblocks bno : Nat) (type : BlockType) (d : Direct) : Prop :=
  1 ≤ bno ∧ bno < nblocks ∧
    (∀ hold ∈ d.held, hold.bno = bno → hold.type = type) ∧
    (bno :: d.held.map Hold.bno).toFinset.card ≤ 16

instance (nblocks bno : Nat) (type : BlockType) (d : Direct) :
    Decidable (d.Allows nblocks bno type) :=
  inferInstanceAs (Decidable (_ ∧ _ ∧ _ ∧ _))

def Direct.step (nblocks : Nat) : Op → Direct → Option (Option Content × Direct)
  | .getblk bno clr type, d =>
      let u := if clr then Content.zero else d.contents bno
      if d.Allows nblocks bno type then
        some (some u, ⟨Function.update d.contents bno u, ⟨bno, type⟩ :: d.held⟩)
      else none
  | .modify k u, d =>
      d.held[k]?.map fun hold =>
        (none, { d with contents := Function.update d.contents hold.bno u })
  | .putblk k, d =>
      d.held[k]?.map fun _ => (none, { d with held := d.held.eraseIdx k })

/-- Carry out the operations and collect what `getblk` gave. -/
def runOps {σ : Type} (step : Op → σ → Option (Option Content × σ)) :
    List Op → σ → Option (List Content × σ)
  | [], s => some ([], s)
  | op :: ops, s =>
      (step op s).bind fun (out, s) =>
        (runOps step ops s).map fun (outs, s) => (out.toList ++ outs, s)

/-- The calls of `getblk`. -/
def gets : List Op → Nat
  | [] => 0
  | .getblk .. :: ops => gets ops + 1
  | _ :: ops => gets ops

/-- A client that starts with an empty cache. -/
def startClient (disk : Memory) : Client := ⟨{ disk := disk }, []⟩

def startDirect (disk : Memory) : Direct := ⟨readBlock disk, []⟩

/-! ## Reading and writing blocks -/

theorem position_eq {bno : Nat} (h : bno < 8192) : position bno = 1024 * bno := by
  unfold position
  omega

theorem readBlock_writeBlock_same (disk : Memory) (bno : Nat) (u : Content) :
    readBlock (writeBlock disk bno u) bno = u := by
  funext i
  have hlt : i.1 < (List.ofFn u).length := by
    rw [List.length_ofFn]
    exact i.isLt
  rw [readBlock, writeBlock, Memory.copy, if_pos (by omega),
    Nat.add_sub_cancel_left, List.getD_eq_getElem _ _ hlt, List.getElem_ofFn]

theorem readBlock_writeBlock_of_ne (disk : Memory) {bno bno' : Nat} (u : Content)
    (h : bno < 8192) (h' : bno' < 8192) (hne : bno' ≠ bno) :
    readBlock (writeBlock disk bno u) bno' = readBlock disk bno' := by
  funext i
  have hlt := i.isLt
  rw [readBlock, writeBlock, Memory.copy, if_neg]
  · rfl
  · rw [List.length_ofFn, position_eq h, position_eq h']
    omega

/-! ## The search -/

variable {cache : Slot → Block} {bno : Nat}

theorem search_found {slots : List Slot} {least : Option Slot} {i : Slot}
    (h : search cache bno slots least = .found i) : (cache i).bno = bno := by
  induction slots generalizing least with
  | nil => cases h
  | cons j slots ih =>
      rw [search] at h
      split at h
      · rename_i hbno
        cases h
        exact hbno
      · split at h
        · exact ih h
        · exact ih h

/-- Without a hit all slots have other blocks, and a free slot is taken if
there is one. -/
theorem search_least {slots : List Slot} {least result : Option Slot}
    (h : search cache bno slots least = .least result) :
    (∀ j ∈ slots, (cache j).bno ≠ bno) ∧
      (∀ i ∈ result, i ∈ least ∨ (cache i).busy = 0) ∧
      (result = none → least = none ∧ ∀ j ∈ slots, (cache j).busy ≠ 0) := by
  induction slots generalizing least with
  | nil =>
      cases h
      exact ⟨by simp, fun i hi => .inl hi, fun hnone => ⟨hnone, by simp⟩⟩
  | cons j slots ih =>
      rw [search] at h
      split at h
      · cases h
      · rename_i hbno
        split at h
        · rename_i hfree
          obtain ⟨hother, hresult, hnone⟩ := ih h
          refine ⟨List.forall_mem_cons.mpr ⟨hbno, hother⟩, ?_, ?_⟩
          · intro i hi
            rcases hresult i hi with hj | hbusy
            · obtain rfl : j = i := Option.some.inj hj
              exact .inr hfree.1
            · exact .inr hbusy
          · intro heq
            obtain ⟨hcontra, -⟩ := hnone heq
            cases hcontra
        · rename_i hnotfree
          obtain ⟨hother, hresult, hnone⟩ := ih h
          refine ⟨List.forall_mem_cons.mpr ⟨hbno, hother⟩, hresult, ?_⟩
          intro heq
          obtain ⟨hleast, hbusy⟩ := hnone heq
          refine ⟨hleast, List.forall_mem_cons.mpr ⟨?_, hbusy⟩⟩
          intro hzero
          apply hnotfree
          refine ⟨hzero, ?_⟩
          rw [hleast]
          simp

/-! ## What the cache shows -/

/-- The blocks that are in the cache have their contents there, the others on
the disk; `busy` counts the pointers that are held. -/
structure Shows (nblocks : Nat) (c : Client) (d : Direct) : Prop where
  contents : ∀ i, (c.formatter.cache i).used ≠ 0 →
    (c.formatter.cache i).u = d.contents (c.formatter.cache i).bno
  disk : ∀ bno < nblocks, (∀ i, (c.formatter.cache i).used ≠ 0 →
    (c.formatter.cache i).bno ≠ bno) →
      readBlock c.formatter.disk bno = d.contents bno
  unused : ∀ i, (c.formatter.cache i).used = 0 →
    (c.formatter.cache i).bno = 0 ∧ (c.formatter.cache i).busy = 0
  bno : ∀ i, (c.formatter.cache i).used ≠ 0 →
    (c.formatter.cache i).bno < nblocks
  injective : ∀ i j, (c.formatter.cache i).used ≠ 0 →
    (c.formatter.cache j).used ≠ 0 →
    (c.formatter.cache i).bno = (c.formatter.cache j).bno → i = j
  busy : ∀ i, (c.formatter.cache i).busy = c.held.count i
  held : d.held = c.held.map fun i =>
    ⟨(c.formatter.cache i).bno, (c.formatter.cache i).type⟩
  length : c.held.length < c.formatter.t

theorem shows_start (disk : Memory) :
    Shows nblocks (startClient disk) (startDirect disk) where
  contents := by
    intro i hused
    exact absurd rfl hused
  disk := fun _ _ _ => rfl
  unused := fun _ _ => ⟨rfl, rfl⟩
  bno := by
    intro i hused
    exact absurd rfl hused
  injective := by
    intro i j hused
    exact absurd rfl hused
  busy := fun _ => rfl
  held := rfl
  length := Nat.zero_lt_one

namespace Shows

variable {c : Client} {d : Direct} {type : BlockType}

theorem used_of_mem (h : Shows nblocks c d) {i : Slot} (hi : i ∈ c.held) :
    (c.formatter.cache i).used ≠ 0 := by
  intro hzero
  have hbusy := (h.unused i hzero).2
  rw [h.busy i] at hbusy
  exact absurd hi (List.count_eq_zero.mp hbusy)

theorem not_mem_of_busy (h : Shows nblocks c d) {i : Slot}
    (hbusy : (c.formatter.cache i).busy = 0) : i ∉ c.held := by
  rw [h.busy i] at hbusy
  exact List.count_eq_zero.mp hbusy

/-- A slot other than those that are held is left while at most sixteen blocks
are. -/
theorem exists_free (h : Shows nblocks c d) {bno : Nat}
    (hallow : d.Allows nblocks bno type)
    (hmiss : ∀ j, (c.formatter.cache j).bno ≠ bno) :
    ∃ j, (c.formatter.cache j).busy = 0 := by
  by_contra hbusy
  push Not at hbusy
  have hmem (j : Slot) : j ∈ c.held := by
    by_contra hnot
    apply hbusy j
    rw [h.busy j]
    exact List.count_eq_zero.mpr hnot
  have hinjective : Function.Injective fun j => (c.formatter.cache j).bno :=
    fun i j heq => h.injective i j (h.used_of_mem (hmem i))
      (h.used_of_mem (hmem j)) heq
  have hnew : bno ∉ Finset.univ.image fun j => (c.formatter.cache j).bno := by
    intro hin
    obtain ⟨j, -, hj⟩ := Finset.mem_image.mp hin
    exact hmiss j hj
  have hsub : insert bno (Finset.univ.image fun j => (c.formatter.cache j).bno) ⊆
      (bno :: d.held.map Hold.bno).toFinset := by
    intro b hb
    rw [List.mem_toFinset]
    rcases Finset.mem_insert.mp hb with rfl | hold
    · exact List.mem_cons_self
    · obtain ⟨j, -, rfl⟩ := Finset.mem_image.mp hold
      rw [h.held]
      simp only [List.map_map, List.mem_cons, List.mem_map]
      exact .inr ⟨j, hmem j, rfl⟩
  have hcard := Finset.card_le_card hsub
  rw [Finset.card_insert_of_notMem hnew,
    Finset.card_image_of_injective _ hinjective, Finset.card_univ,
    Fintype.card_fin] at hcard
  have hroom := hallow.2.2.2
  omega

/-! ## `getblk` -/

/-- What `getblk` leaves: the slot `i` holds `bno` now, and `disk` is the file
with what was in the slot before. -/
structure Taken (c : Client) (d : Direct) (nblocks bno : Nat) (i : Slot)
    (disk : Memory) : Prop where
  same : i ∈ c.held → (c.formatter.cache i).bno = bno
  other : ∀ j ≠ i, (c.formatter.cache j).used ≠ 0 →
    (c.formatter.cache j).bno ≠ bno
  disk : ∀ b < nblocks, b ≠ bno → (∀ j ≠ i, (c.formatter.cache j).used ≠ 0 →
    (c.formatter.cache j).bno ≠ b) → readBlock disk b = d.contents b

/-- The formatter after `getblk`. -/
def taken (c : Client) (i : Slot) (bno : Nat) (type : BlockType) (u : Content)
    (disk : Memory) : Formatter where
  cache := Function.update c.formatter.cache i
    ⟨bno, type, c.held.count i + 1, c.formatter.t + 1, u⟩
  disk := disk
  t := c.formatter.t + 1

theorem hit (h : Shows nblocks c d) {i : Slot} (hpos : 1 ≤ bno)
    (hi : (c.formatter.cache i).bno = bno) :
    Taken c d nblocks bno i c.formatter.disk := by
  have hused : (c.formatter.cache i).used ≠ 0 := by
    intro hzero
    have := (h.unused i hzero).1
    omega
  constructor
  · exact fun _ => hi
  · intro j hj hjused heq
    exact hj (h.injective j i hjused hused (heq.trans hi.symm))
  · intro b hb hne hother
    apply h.disk b hb
    intro j hjused
    by_cases hj : j = i
    · rw [hj, hi]
      exact hne.symm
    · exact hother j hj hjused

/-- The disk once the block in slot `i` has been written back. -/
def writtenBack (s : Formatter) (i : Slot) : Memory :=
  if (s.cache i).used ≠ 0 then writeBlock s.disk (s.cache i).bno (s.cache i).u
  else s.disk

theorem flush_eq (s : Formatter) (i : Slot) :
    (if (s.cache i).used ≠ 0 then flushb i s else s) =
      { s with disk := writtenBack s i } := by
  rw [flushb_eq, writtenBack]
  split
  · rfl
  · rfl

theorem miss (h : Shows nblocks c d) {i : Slot} (hblocks : nblocks ≤ 8192)
    (hbno : bno < nblocks) (hmiss : ∀ j, (c.formatter.cache j).bno ≠ bno)
    (hbusy : (c.formatter.cache i).busy = 0) :
    Taken c d nblocks bno i (writtenBack c.formatter i) ∧
      readBlock (writtenBack c.formatter i) bno = d.contents bno := by
  unfold writtenBack
  have hread : readBlock c.formatter.disk bno = d.contents bno :=
    h.disk bno hbno fun j _ => hmiss j
  by_cases hused : (c.formatter.cache i).used = 0
  · rw [if_neg (by simpa using hused)]
    refine ⟨⟨fun hi => absurd hi (h.not_mem_of_busy hbusy),
      fun j _ _ => hmiss j, ?_⟩, hread⟩
    intro b hb _ hother
    apply h.disk b hb
    intro j hjused
    by_cases hj : j = i
    · rw [hj] at hjused
      exact absurd hused hjused
    · exact hother j hj hjused
  · rw [if_pos hused]
    have hlt := h.bno i hused
    constructor
    · refine ⟨fun hi => absurd hi (h.not_mem_of_busy hbusy),
        fun j _ _ => hmiss j, ?_⟩
      intro b hb _ hother
      by_cases hold : b = (c.formatter.cache i).bno
      · rw [hold, readBlock_writeBlock_same]
        exact h.contents i hused
      · rw [readBlock_writeBlock_of_ne _ _ (by omega) (by omega) hold]
        apply h.disk b hb
        intro j hjused
        by_cases hj : j = i
        · rw [hj]
          exact Ne.symm hold
        · exact hother j hj hjused
    · rw [readBlock_writeBlock_of_ne _ _ (by omega) (by omega)
        (hmiss i).symm]
      exact hread

theorem getblkOut_eq {s : Formatter} {i : Slot} (clr : Bool)
    (ht : s.t + 1 < 2 ^ 32) (hbusy : (s.cache i).busy + 1 < 2 ^ 32)
    (hassert : (s.cache i).type = type ∨ (s.cache i).busy = 0) :
    getblkOut i clr type s = some (i,
      { cache := Function.update s.cache i
          ⟨(s.cache i).bno, type, (s.cache i).busy + 1, s.t + 1,
            if clr then Content.zero else (s.cache i).u⟩
        disk := s.disk
        t := s.t + 1 }) := by
  have hone : (s.cache i).type = type ∨
      ((s.cache i).busy + 1) % 2 ^ 32 = 1 := by
    rcases hassert with htype | hzero
    · exact .inl htype
    · exact .inr (by rw [hzero]; rfl)
  rw [getblkOut]
  dsimp only
  rw [if_pos hone, Nat.mod_eq_of_lt ht, Nat.mod_eq_of_lt hbusy]
  rfl

/-- `getblk` takes a slot and finds in it what the block holds. -/
theorem getblk_eq (h : Shows nblocks c d) (hblocks : nblocks ≤ 8192)
    (hallow : d.Allows nblocks bno type) (ht : c.formatter.t + 1 < 2 ^ 32)
    (clr : Bool) :
    ∃ i disk, Taken c d nblocks bno i disk ∧
      getblk nblocks bno clr type c.formatter =
        some (i, taken c i bno type
          (if clr then Content.zero else d.contents bno) disk) := by
  obtain ⟨hpos, hbno, htypes, hroom⟩ := id hallow
  cases hsearch : search c.formatter.cache bno (List.finRange 16) none with
  | found i =>
      have hi := search_found hsearch
      have hused : (c.formatter.cache i).used ≠ 0 := by
        intro hzero
        have := (h.unused i hzero).1
        omega
      have hlt : (c.formatter.cache i).busy + 1 < 2 ^ 32 := by
        have hle : c.held.count i ≤ c.held.length := List.count_le_length
        have hlength := h.length
        have hbusy := h.busy i
        omega
      have hassert : (c.formatter.cache i).type = type ∨
          (c.formatter.cache i).busy = 0 := by
        by_cases hmem : i ∈ c.held
        · refine .inl (htypes ⟨_, _⟩ ?_ hi)
          rw [h.held]
          exact List.mem_map_of_mem hmem
        · rw [h.busy i]
          exact .inr (List.count_eq_zero.mpr hmem)
      refine ⟨i, _, h.hit hpos hi, ?_⟩
      rw [getblk, if_neg (by omega), hsearch]
      dsimp only
      rw [getblkOut_eq clr ht hlt hassert, taken, h.contents i hused, hi,
        h.busy i]
  | least result =>
      obtain ⟨hother, hresult, hnone⟩ := search_least hsearch
      have hmiss (j : Slot) : (c.formatter.cache j).bno ≠ bno :=
        hother j (List.mem_finRange j)
      cases result with
      | none =>
          obtain ⟨j, hj⟩ := h.exists_free hallow hmiss
          exact absurd hj ((hnone rfl).2 j (List.mem_finRange j))
      | some i =>
          have hbusy : (c.formatter.cache i).busy = 0 := by
            rcases hresult i rfl with hcontra | hbusy
            · cases hcontra
            · exact hbusy
          obtain ⟨htaken, hread⟩ := h.miss hblocks hbno hmiss hbusy
          refine ⟨i, _, htaken, ?_⟩
          have hswizzle (b : Block) : (if clr then b else swizzleblock b) = b := by
            rw [swizzleblock_eq, ite_self]
          rw [getblk, if_neg (by omega), hsearch]
          dsimp only
          rw [flush_eq, hswizzle]
          refine (getblkOut_eq clr ?_ ?_ (.inl ?_)).trans ?_
          · exact ht
          · simp [Formatter.setBlock]
          · simp [Formatter.setBlock]
          · have hcount : c.held.count i = 0 := by rw [← h.busy i, hbusy]
            simp only [Formatter.setBlock, Function.update_self,
              Function.update_idem, taken, hread, hcount]

theorem taken_cache_of_ne (c : Client) {i j : Slot} (hj : j ≠ i) (bno : Nat)
    (type : BlockType) (u : Content) (disk : Memory) :
    (taken c i bno type u disk).cache j = c.formatter.cache j := by
  simp [taken, hj]

theorem taken_cache_self (c : Client) (i : Slot) (bno : Nat)
    (type : BlockType) (u : Content) (disk : Memory) :
    (taken c i bno type u disk).cache i =
      ⟨bno, type, c.held.count i + 1, c.formatter.t + 1, u⟩ := by
  simp [taken]

theorem take (h : Shows nblocks c d) {i : Slot} {disk : Memory}
    (htaken : Taken c d nblocks bno i disk) (hallow : d.Allows nblocks bno type)
    (u : Content) :
    Shows nblocks ⟨taken c i bno type u disk, i :: c.held⟩
      ⟨Function.update d.contents bno u, ⟨bno, type⟩ :: d.held⟩ := by
  obtain ⟨hpos, hbno, htypes, -⟩ := hallow
  have hself := taken_cache_self c i bno type u disk
  have hne {j : Slot} (hj : j ≠ i) := taken_cache_of_ne c hj bno type u disk
  have hdifferent {j : Slot} (hj : j ≠ i)
      (hused : (c.formatter.cache j).used ≠ 0) :=
    htaken.other j hj hused
  constructor
  · intro j hused
    dsimp only at hused ⊢
    by_cases hj : j = i
    · rw [hj, hself, Function.update_self]
    · rw [hne hj] at hused ⊢
      rw [Function.update_of_ne (hdifferent hj hused)]
      exact h.contents j hused
  · intro b hb hother
    dsimp only at hother ⊢
    have hb' : b ≠ bno := by
      have hi := hother i
      rw [hself] at hi
      exact (hi (Nat.succ_ne_zero _)).symm
    rw [Function.update_of_ne hb']
    apply htaken.disk b hb hb'
    intro j hj hused
    have hj' := hother j
    rw [hne hj] at hj'
    exact hj' hused
  · intro j hused
    dsimp only at hused ⊢
    by_cases hj : j = i
    · rw [hj, hself] at hused
      exact absurd hused (Nat.succ_ne_zero _)
    · rw [hne hj] at hused ⊢
      exact h.unused j hused
  · intro j hused
    dsimp only at hused ⊢
    by_cases hj : j = i
    · rw [hj, hself]
      exact hbno
    · rw [hne hj] at hused ⊢
      exact h.bno j hused
  · intro j k hjused hkused heq
    dsimp only at hjused hkused heq
    by_cases hj : j = i
    · by_cases hk : k = i
      · rw [hj, hk]
      · rw [hne hk] at hkused heq
        rw [hj, hself] at heq
        exact absurd heq.symm (hdifferent hk hkused)
    · rw [hne hj] at hjused heq
      by_cases hk : k = i
      · rw [hk, hself] at heq
        exact absurd heq (hdifferent hj hjused)
      · rw [hne hk] at hkused heq
        exact h.injective j k hjused hkused heq
  · intro j
    dsimp only
    by_cases hj : j = i
    · rw [hj, hself, List.count_cons_self]
    · rw [hne hj, List.count_cons_of_ne (Ne.symm hj)]
      exact h.busy j
  · simp only [List.map_cons, hself, h.held]
    congr 1
    apply List.map_congr_left
    intro j hmem
    by_cases hj : j = i
    · subst hj
      have hbno' := htaken.same hmem
      have htype : (c.formatter.cache j).type = type := by
        refine htypes ⟨_, _⟩ ?_ hbno'
        rw [h.held]
        exact List.mem_map_of_mem hmem
      rw [hself, hbno', htype]
    · rw [hne hj]
  · have hlength := h.length
    simp only [taken, List.length_cons]
    omega

/-! ## `putblk` and changes of a block -/

/-- A slot in which only `busy` and `u` change keeps its block. -/
theorem setBlock_keeps (s : Formatter) (i j : Slot) {b : Block}
    (hbno : b.bno = (s.cache i).bno) (htype : b.type = (s.cache i).type)
    (hused : b.used = (s.cache i).used) :
    ((s.setBlock i b).cache j).bno = (s.cache j).bno ∧
      ((s.setBlock i b).cache j).type = (s.cache j).type ∧
      ((s.setBlock i b).cache j).used = (s.cache j).used := by
  by_cases hj : j = i
  · subst hj
    simp [Formatter.setBlock, hbno, htype, hused]
  · simp [Formatter.setBlock, hj]

theorem modify (h : Shows nblocks c d) {i : Slot} (hi : i ∈ c.held)
    (u : Content) :
    Shows nblocks
      { c with formatter :=
        c.formatter.setBlock i { c.formatter.cache i with u := u } }
      { d with contents :=
        Function.update d.contents (c.formatter.cache i).bno u } := by
  have hused := h.used_of_mem hi
  have hkeeps (j : Slot) := setBlock_keeps c.formatter i j
    (b := { c.formatter.cache i with u := u }) rfl rfl rfl
  have hbusy (j : Slot) : ((c.formatter.setBlock i
      { c.formatter.cache i with u := u }).cache j).busy =
        (c.formatter.cache j).busy := by
    by_cases hj : j = i
    · subst hj
      simp [Formatter.setBlock]
    · simp [Formatter.setBlock, hj]
  constructor
  · intro j hjused
    dsimp only at hjused ⊢
    rw [(hkeeps j).2.2] at hjused
    rw [(hkeeps j).1]
    by_cases hj : j = i
    · subst hj
      simp [Formatter.setBlock]
    · have hne : (c.formatter.cache j).bno ≠ (c.formatter.cache i).bno :=
        fun heq => hj (h.injective j i hjused hused heq)
      rw [Function.update_of_ne hne, ← h.contents j hjused]
      simp [Formatter.setBlock, hj]
  · intro b hb hother
    simp only [hkeeps] at hother
    have hne : b ≠ (c.formatter.cache i).bno := (hother i hused).symm
    dsimp only
    rw [Function.update_of_ne hne]
    exact h.disk b hb hother
  · simp only [hkeeps, hbusy]
    exact h.unused
  · simp only [hkeeps]
    exact h.bno
  · simp only [hkeeps]
    exact h.injective
  · simp only [hbusy]
    exact h.busy
  · simp only [hkeeps]
    exact h.held
  · exact h.length

theorem put (h : Shows nblocks c d) {k : Nat} {i : Slot}
    (hk : c.held[k]? = some i) (ht : c.formatter.t < 2 ^ 32) :
    Shows nblocks ⟨putblk i c.formatter, c.held.eraseIdx k⟩
      { d with held := d.held.eraseIdx k } := by
  obtain ⟨hlt, hget⟩ := List.getElem?_eq_some_iff.mp hk
  have hperm : (i :: c.held.eraseIdx k).Perm c.held := by
    have := List.getElem_cons_eraseIdx_perm hlt
    rwa [hget] at this
  have hcount (j : Slot) : c.held.count j =
      (c.held.eraseIdx k).count j + if i = j then 1 else 0 := by
    rw [← hperm.count_eq, List.count_cons]
    simp
  have hkeeps (j : Slot) :
      ((putblk i c.formatter).cache j).bno = (c.formatter.cache j).bno ∧
        ((putblk i c.formatter).cache j).type = (c.formatter.cache j).type ∧
        ((putblk i c.formatter).cache j).used = (c.formatter.cache j).used :=
    setBlock_keeps c.formatter i j rfl rfl rfl
  have hu (j : Slot) : ((putblk i c.formatter).cache j).u =
      (c.formatter.cache j).u := by
    by_cases hij : j = i
    · subst hij
      simp [putblk, Formatter.setBlock]
    · simp [putblk, Formatter.setBlock, hij]
  have hbusy (j : Slot) : ((putblk i c.formatter).cache j).busy =
      (c.held.eraseIdx k).count j := by
    have hj := h.busy j
    rw [hcount j] at hj
    by_cases hij : i = j
    · subst hij
      have hle : (c.held.eraseIdx k).count i ≤ (c.held.eraseIdx k).length :=
        List.count_le_length
      have hlength := h.length
      rw [List.length_eraseIdx_of_lt hlt] at hle
      rw [if_pos rfl] at hj
      simp only [putblk, Formatter.setBlock, Function.update_self]
      omega
    · rw [if_neg hij] at hj
      simpa [putblk, Formatter.setBlock, Ne.symm hij] using hj
  constructor
  · simp only [hkeeps, hu]
    exact h.contents
  · simp only [hkeeps]
    exact h.disk
  · intro j hused
    simp only [hkeeps] at hused ⊢
    obtain ⟨hbno, hzero⟩ := h.unused j hused
    rw [h.busy j, hcount j] at hzero
    rw [hbusy j]
    exact ⟨hbno, by omega⟩
  · simp only [hkeeps]
    exact h.bno
  · simp only [hkeeps]
    exact h.injective
  · exact hbusy
  · simp only [hkeeps]
    rw [h.held, List.eraseIdx_map]
  · have hlength := h.length
    have hle := List.length_eraseIdx_le c.held k
    exact lt_of_le_of_lt hle hlength

/-! ## Runs -/

/-- One operation that direct access allows. -/
theorem step (h : Shows nblocks c d) (hblocks : nblocks ≤ 8192) {op : Op}
    (ht : c.formatter.t + gets [op] < 2 ^ 32) {out : Option Content}
    {d' : Direct} (hstep : d.step nblocks op = some (out, d')) :
    ∃ c', c.step nblocks op = some (out, c') ∧ Shows nblocks c' d' ∧
      c'.formatter.t = c.formatter.t + gets [op] := by
  cases op with
  | getblk bno clr type =>
      simp only [Direct.step] at hstep
      split at hstep
      · rename_i hallow
        cases hstep
        obtain ⟨i, disk, htaken, heq⟩ := h.getblk_eq hblocks hallow ht clr
        refine ⟨_, ?_, h.take htaken hallow _, rfl⟩
        rw [Client.step, heq, Option.map_some]
        dsimp only
        rw [taken_cache_self]
      · cases hstep
  | modify k u =>
      simp only [Direct.step, h.held, List.getElem?_map] at hstep
      cases hk : c.held[k]? with
      | none =>
          rw [hk] at hstep
          cases hstep
      | some i =>
          rw [hk] at hstep
          cases hstep
          have hmodified := h.modify (List.mem_of_getElem? hk) u
          rw [h.held] at hmodified
          exact ⟨_, c.step_modify hk u, hmodified, rfl⟩
  | putblk k =>
      simp only [Direct.step, h.held, List.getElem?_map] at hstep
      cases hk : c.held[k]? with
      | none =>
          rw [hk] at hstep
          cases hstep
      | some i =>
          rw [hk] at hstep
          cases hstep
          have hput := h.put hk (Nat.lt_of_le_of_lt (Nat.le_add_right _ _) ht)
          rw [h.held] at hput
          exact ⟨_, c.step_putblk hk, hput, rfl⟩

theorem gets_cons (op : Op) (ops : List Op) :
    gets (op :: ops) = gets [op] + gets ops := by
  cases op with
  | getblk bno clr type => exact Nat.add_comm _ _
  | modify k u => exact (Nat.zero_add _).symm
  | putblk k => exact (Nat.zero_add _).symm

theorem run (h : Shows nblocks c d) (hblocks : nblocks ≤ 8192) {ops : List Op}
    (ht : c.formatter.t + gets ops < 2 ^ 32) {outs : List Content}
    {d' : Direct} (hrun : runOps (Direct.step nblocks) ops d = some (outs, d')) :
    ∃ c', runOps (Client.step nblocks) ops c = some (outs, c') ∧
      Shows nblocks c' d' := by
  induction ops generalizing c d outs with
  | nil =>
      cases hrun
      exact ⟨c, rfl, h⟩
  | cons op ops ih =>
      rw [gets_cons] at ht
      rw [runOps] at hrun
      cases hstep : d.step nblocks op with
      | none =>
          rw [hstep] at hrun
          cases hrun
      | some result =>
          obtain ⟨out, d₁⟩ := result
          rw [hstep, Option.bind_some] at hrun
          obtain ⟨⟨outs₁, d₂⟩, hrest, hresult⟩ := Option.map_eq_some_iff.mp hrun
          cases hresult
          obtain ⟨c₁, hc, h₁, ht₁⟩ := h.step hblocks (by omega) hstep
          obtain ⟨c₂, hc₂, h₂⟩ := ih h₁ (by omega) hrest
          refine ⟨c₂, ?_, h₂⟩
          rw [runOps, hc, Option.bind_some]
          dsimp only
          rw [hc₂, Option.map_some]

end Shows

/-! ## `flushdisk` -/

/-- The slots of the list are written, the cache stays. -/
theorem flush_foldl {c : Client} {d : Direct} (h : Shows nblocks c d)
    (hblocks : nblocks ≤ 8192) (hbno : bno < nblocks) (slots : List Slot)
    (s : Formatter) (hcache : s.cache = c.formatter.cache)
    (hread : (∀ i ∈ slots, (c.formatter.cache i).used ≠ 0 →
      (c.formatter.cache i).bno ≠ bno) →
        readBlock s.disk bno = d.contents bno) :
    readBlock (slots.foldl
      (fun s i => if (s.cache i).used ≠ 0 then flushb i s else s) s).disk bno =
        d.contents bno := by
  induction slots generalizing s with
  | nil => exact hread (by simp)
  | cons i slots ih =>
      rw [List.foldl_cons, Shows.flush_eq]
      apply ih
      · exact hcache
      · intro hother
        dsimp only
        rw [Shows.writtenBack, hcache]
        split
        · rename_i hused
          by_cases heq : (c.formatter.cache i).bno = bno
          · rw [← heq, readBlock_writeBlock_same]
            exact h.contents i hused
          · have hlt := h.bno i hused
            rw [readBlock_writeBlock_of_ne _ _ (by omega) (by omega)
              (Ne.symm heq)]
            apply hread
            rw [List.forall_mem_cons]
            exact ⟨fun _ => heq, hother⟩
        · rename_i hunused
          apply hread
          rw [List.forall_mem_cons]
          exact ⟨fun hused => absurd hused hunused, hother⟩

theorem flushdisk_contents {c : Client} {d : Direct} (h : Shows nblocks c d)
    (hblocks : nblocks ≤ 8192) (hbno : bno < nblocks) :
    readBlock (flushdisk c.formatter).disk bno = d.contents bno := by
  apply flush_foldl h hblocks hbno _ _ rfl
  intro hother
  exact h.disk bno hbno fun i => hother i (List.mem_finRange i)

/-! ## The cache is transparent -/

/-- The run with the cache gives the callers what direct access gives them,
and then `flushdisk` leaves it on the disk. -/
def Transparent (nblocks : Nat) (disk : Memory) (ops : List Op) : Prop :=
  ∀ outs d, runOps (Direct.step nblocks) ops (startDirect disk) = some (outs, d) →
    ∃ c, runOps (Client.step nblocks) ops (startClient disk) = some (outs, c) ∧
      ∀ bno < nblocks,
        readBlock (flushdisk c.formatter).disk bno = d.contents bno

/-- `main` accepts at most 8192 blocks; `t` must not come back to 0, which marks
a slot that was never used. -/
theorem transparent_of_gets (disk : Memory) {ops : List Op}
    (hblocks : nblocks ≤ 8192) (hgets : gets ops < 2 ^ 32 - 1) :
    Transparent nblocks disk ops := by
  intro outs d hrun
  obtain ⟨c, hc, h⟩ := (shows_start disk).run hblocks (by
    change 1 + gets ops < 2 ^ 32
    omega) hrun
  exact ⟨c, hc, fun bno hbno => flushdisk_contents h hblocks hbno⟩

/-- Block 1 is filled with ones. -/
theorem transparent_of_gets_fill :
    Transparent 8 (fun _ => 0)
      [.getblk 1 false .file, .modify 0 fun _ => 1, .putblk 0] :=
  transparent_of_gets (fun _ => 0) (by decide) (by decide)

/-! ## The counter comes back to 0 -/

/-- Block 1 is taken and put back. -/
def touch : List Op := [.getblk 1 false .file, .putblk 0]

/-- Block 1 of a zero disk is in slot 0 and nobody holds it. -/
def parked (t : Nat) (u : Content) : Client where
  formatter :=
    { cache := Function.update (fun _ => {}) 0 ⟨1, .file, 0, t, u⟩
      disk := fun _ => 0
      t := t }
  held := []

theorem getblk_parked (t : Nat) (u : Content) :
    getblk 8 1 false .file (parked t u).formatter =
      some (0, (parked t u).formatter.setBlock 0
        ⟨1, .file, 1, (t + 1) % 2 ^ 32, u⟩ |> fun s =>
          { s with t := (t + 1) % 2 ^ 32 }) := by
  rfl

theorem runOps_append {σ : Type} {step : Op → σ → Option (Option Content × σ)}
    {ops : List Op} {s s' : σ} {outs : List Content}
    (h : runOps step ops s = some (outs, s')) (more : List Op) :
    runOps step (ops ++ more) s =
      (runOps step more s').map fun (outs', s) => (outs ++ outs', s) := by
  induction ops generalizing s outs with
  | nil =>
      cases h
      simp
  | cons op ops ih =>
      rw [runOps] at h
      rw [List.cons_append, runOps]
      cases hstep : step op s with
      | none =>
          rw [hstep] at h
          cases h
      | some result =>
          obtain ⟨out, s₁⟩ := result
          rw [hstep, Option.bind_some] at h
          obtain ⟨⟨outs₁, s₂⟩, hrest, hresult⟩ := Option.map_eq_some_iff.mp h
          cases hresult
          rw [Option.bind_some]
          dsimp only
          rw [ih hrest, Option.map_map]
          congr 1
          funext result
          simp

theorem touch_parked (t : Nat) (u : Content) :
    runOps (Client.step 8) touch (parked t u) =
      some ([u], parked ((t + 1) % 2 ^ 32) u) := by
  have hget : (parked t u).step 8 (.getblk 1 false .file) =
      some (some u, ⟨{ (parked t u).formatter.setBlock 0
        ⟨1, .file, 1, (t + 1) % 2 ^ 32, u⟩ with t := (t + 1) % 2 ^ 32 }, [0]⟩) := by
    rw [Client.step, getblk_parked]
    rfl
  rw [touch, runOps, hget, Option.bind_some]
  simp [runOps, Client.step, putblk, Formatter.setBlock, parked]

theorem touch_start : runOps (Client.step 8) touch (startClient fun _ => 0) =
    some ([Content.zero], parked 2 Content.zero) := by
  have hget : (startClient fun _ => 0).step 8 (.getblk 1 false .file) =
      some (some Content.zero, ⟨{ (parked 2 Content.zero).formatter.setBlock 0
        ⟨1, .file, 1, 2, Content.zero⟩ with t := 2 }, [0]⟩) := by
    have hsearch : search (fun _ => {}) 1 (List.finRange 16) none =
        .least (some 0) := rfl
    have hzero : readBlock (fun _ => 0) 1 = Content.zero := rfl
    rw [Client.step, getblk, if_neg (by decide), startClient]
    dsimp only
    rw [hsearch]
    simp [getblkOut, Formatter.setBlock, parked, hzero]
  rw [touch, runOps, hget, Option.bind_some]
  simp [runOps, Client.step, putblk, Formatter.setBlock, parked]

theorem direct_get : (startDirect fun _ => 0).step 8 (.getblk 1 false .file) =
    some (some Content.zero, ⟨readBlock fun _ => 0, [⟨1, .file⟩]⟩) := by
  have hallow : (startDirect fun _ => 0).Allows 8 1 .file := by decide
  have hsame : Function.update (readBlock fun _ => 0) 1
      (readBlock (fun _ => 0) 1) = readBlock fun _ => 0 :=
    Function.update_eq_self _ _
  rw [Direct.step, if_pos hallow, if_neg (by decide), startDirect, hsame]
  rfl

theorem direct_touch : runOps (Direct.step 8) touch (startDirect fun _ => 0) =
    some ([Content.zero], startDirect fun _ => 0) := by
  rw [touch, runOps, direct_get, Option.bind_some]
  simp [runOps, Direct.step, startDirect]

theorem run_touches (n t : Nat) :
    runOps (Client.step 8) (List.replicate n touch).flatten
        (parked (t % 2 ^ 32) Content.zero) =
      some (List.replicate n Content.zero,
        parked ((t + n) % 2 ^ 32) Content.zero) := by
  induction n generalizing t with
  | zero => rfl
  | succ n ih =>
      rw [List.replicate_succ, List.flatten_cons,
        runOps_append (touch_parked _ _), Nat.mod_add_mod, ih,
        Option.map_some, Nat.add_right_comm, Nat.add_assoc]
      rfl

theorem direct_touches (n : Nat) :
    runOps (Direct.step 8) (List.replicate n touch).flatten
        (startDirect fun _ => 0) =
      some (List.replicate n Content.zero, startDirect fun _ => 0) := by
  induction n with
  | zero => rfl
  | succ n ih =>
      rw [List.replicate_succ, List.flatten_cons, runOps_append direct_touch, ih,
        Option.map_some]
      rfl

/-- Block 1 is filled with ones. -/
def fillOnes : List Op :=
  [.getblk 1 false .file, .modify 0 fun _ => 1, .putblk 0]

/-- With the counter at its end the change stays in the cache. -/
theorem run_fillOnes : runOps (Client.step 8) fillOnes
      (parked (2 ^ 32 - 1) Content.zero) =
    some ([Content.zero], parked 0 fun _ => 1) := by
  have hget : (parked (2 ^ 32 - 1) Content.zero).step 8 (.getblk 1 false .file) =
      some (some Content.zero,
        ⟨{ (parked (2 ^ 32 - 1) Content.zero).formatter.setBlock 0
          ⟨1, .file, 1, 0, Content.zero⟩ with t := 0 }, [0]⟩) := by
    rw [Client.step, getblk_parked]
    rfl
  rw [fillOnes, runOps, hget, Option.bind_some]
  simp [runOps, Client.step, putblk, Formatter.setBlock, parked]

theorem direct_fillOnes : ∃ d, runOps (Direct.step 8) fillOnes
      (startDirect fun _ => 0) = some ([Content.zero], d) ∧
    d.contents 1 = fun _ => 1 := by
  rw [fillOnes, runOps, direct_get, Option.bind_some]
  simp [runOps, Direct.step]

theorem flushdisk_unused {s : Formatter} (hunused : ∀ i, (s.cache i).used = 0) :
    flushdisk s = s := by
  unfold flushdisk
  induction List.finRange 16 with
  | nil => rfl
  | cons i slots ih => rw [List.foldl_cons, if_neg (by simp [hunused i]), ih]

theorem parked_zero_unused (u : Content) (i : Slot) :
    ((parked 0 u).formatter.cache i).used = 0 := by
  by_cases hi : i = 0
  · subst hi
    rfl
  · simp [parked, hi]

theorem not_transparent_of_wrap {n : Nat} (hn : (2 + n) % 2 ^ 32 = 2 ^ 32 - 1) :
    ¬ Transparent 8 (fun _ => 0)
      ((List.replicate (n + 1) touch).flatten ++ fillOnes) := by
  intro h
  obtain ⟨d, hdirect, hones⟩ := direct_fillOnes
  have hrun := runOps_append (direct_touches (n + 1)) fillOnes
  rw [hdirect, Option.map_some] at hrun
  obtain ⟨c, hc, hdisk⟩ := h _ _ hrun
  have htouches := run_touches n 2
  rw [hn, show 2 % 2 ^ 32 = 2 from rfl] at htouches
  have hcache := runOps_append touch_start
    ((List.replicate n touch).flatten ++ fillOnes)
  rw [runOps_append htouches, run_fillOnes, Option.map_some, Option.map_some,
    ← List.append_assoc] at hcache
  rw [List.replicate_succ, List.flatten_cons, hcache] at hc
  obtain ⟨-, rfl⟩ := Prod.mk.inj (Option.some.inj hc)
  have hblock := congrFun (hdisk 1 (by decide)) 0
  rw [flushdisk_unused (parked_zero_unused _), hones] at hblock
  exact absurd hblock (by decide)

/-- A change after 2^32 - 2 calls of `getblk` does not reach the disk. -/
theorem wrappedCounter_not_transparent :
    ¬ ∀ nblocks ≤ 8192, ∀ disk ops, Transparent nblocks disk ops :=
  fun hall => not_transparent_of_wrap (n := 2 ^ 32 - 3) (by norm_num)
    (hall 8 (by decide) _ _)

end Cs111Labs.Image
