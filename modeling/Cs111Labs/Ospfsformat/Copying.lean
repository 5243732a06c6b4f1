import Cs111Labs.Ospfsformat.Direntries

/-!
# The contents of a file

The loop takes one block for each 1024 bytes and writes the size at its end.
-/

namespace Cs111Labs.Ospfsformat

open Foundation Memory Ospfs

variable {o : Opened} {g : Geometry} {m m' : Memory} {n n' : Nat → Nat}
  {i k c links mode : Nat} {s s' : Writer} {nodes : List Node}
  {stored chunk bytes : List UInt8}

/-- The file with the inode `i` has the bytes `stored` so far, and no size yet. -/
structure Copied (g : Geometry) (s : Writer) (n : Nat → Nat) (nodes : List Node)
    (i links mode : Nat) (stored : List UInt8) : Prop where
  drawn : Drawn g s n ∅ {i} nodes
  count : n i = (stored.length + 1023) / 1024
  ftype : oiFtype s.disk (inodeAt i) = ftypeReg
  nlink : oiNlink s.disk (inodeAt i) = links % 2 ^ 32
  mode : load32 s.disk (inodeAt i + 12) = mode % 2 ^ 32
  bytes : ∀ k (hk : k < stored.length), blockByte s.disk i k = stored[k]

namespace Copied

theorem lt (h : Copied g s n nodes i links mode stored) : i < g.ninodes :=
  (h.drawn.skipped i rfl).trans_le h.drawn.le

theorem hasPointers (h : Copied g s n nodes i links mode stored) : HasPointers s.disk i := by
  rw [HasPointers, h.ftype]
  exact (by decide : ftypeReg ≠ ftypeSymlink)

/-- A change in the next free block. -/
theorem beside (h : Copied g s n nodes i links mode stored) (hlast : s.nextb < g.nblocks)
    (hchanges : ChangesOnly (blockBytes s.nextb) s.disk m') :
    (∀ e ≤ 12, load32 m' (inodeAt i + e) = load32 s.disk (inodeAt i + e)) ∧
      ∀ k (hk : k < stored.length), blockByte m' i k = stored[k] := by
  have hdata := h.drawn.laid.fresh hlast
  constructor
  · intro e he
    refine hchanges.load32 fun x hx hmem => not_mem_blockBytes_of_inode hdata h.lt ?_ hmem
    simp only [inodeBytes, Set.mem_Ico]
    omega
  · intro k hk
    have hcount := h.count
    have hindex : k / 1024 < n i := by omega
    have huse : placesOf g n (i, Slot.ofIndex (k / 1024)) :=
      ⟨h.lt, Slot.ofIndex_inUse hindex (h.drawn.small i)⟩
    have hplace : blockAddress m' i k = blockAddress s.disk i k :=
      blockAddress_congr (h.drawn.laid.writeBlock_target hdata
        (fun p hp _ => h.drawn.laid.ne_fresh le_rfl hp) hchanges huse)
    rw [blockByte, hplace, ← h.bytes k hk]
    refine hchanges _ fun hmem => ?_
    exact not_mem_blockBytes_of_ne (h.drawn.laid.lt huse).ne
      (h.drawn.laid.mem_block (e := 0) huse (by omega)) hmem

theorem clear (h : Copied g s n nodes i links mode stored) (hlast : s.nextb < g.nblocks) :
    Copied g { s with disk := eraseBlock s.disk s.nextb } n nodes i links mode stored := by
  obtain ⟨hload, hbytes⟩ := h.beside hlast (eraseBlock_changesOnly (h.drawn.laid.fresh hlast))
  exact ⟨h.drawn.clear hlast, h.count, (hload 4 (by decide)).trans h.ftype,
    (hload 8 (by decide)).trans h.nlink, (hload 12 le_rfl).trans h.mode, hbytes⟩

/-- The size is written. -/
theorem finish (h : Copied g s n nodes i links mode stored) :
    Drawn g { s with disk := setOiSize s.disk (inodeAt i) stored.length } n ∅ ∅
      (nodes.set i (.reg links mode stored)) := by
  have hchanges := setOiSize_changesOnly s.disk i stored.length
  have hload : ∀ e, 4 ≤ e → load32 (setOiSize s.disk (inodeAt i) stored.length) (inodeAt i + e) =
      load32 s.disk (inodeAt i + e) := fun e he => load32_store32_of_disjoint (by omega)
  have hftype := (hload 4 le_rfl).trans h.ftype
  have hsmall := h.drawn.small i
  have hcount := h.count
  unfold Slot.maxfileblks at hsmall
  have hdrawn := h.drawn.fields rfl hchanges fun _ => h.hasPointers
  rw [← insert_empty_eq] at hdrawn
  refine hdrawn.modify (Set.notMem_empty i) ⟨hftype, (hload 8 (by decide)).trans h.nlink, ?_,
    (hload 12 (by decide)).trans h.mode, hcount, fun k hk => ?_⟩
  · exact (load32_store32_same _ _ _).trans (Nat.mod_eq_of_lt (by omega))
  · rw [← h.bytes k hk]
    have hindex : k / 1024 < n i := by omega
    exact h.drawn.laid.field_bytes (e := 0) h.lt hchanges
      ⟨h.lt, Slot.ofIndex_inUse hindex (h.drawn.small i)⟩ (by omega)

/-- A block with the next bytes. -/
theorem block (ho : o.nblocks = g.nblocks) (h : Copied g s n nodes i links mode stored)
    (hwhole : stored.length = 1024 * n i) (hpos : 0 < chunk.length) (hle : chunk.length ≤ 1024)
    (hlast : s.nextb < g.nblocks)
    (hstore : storeblk o (inodeAt i) s.nextb (n i)
      { s with
        disk := copy (eraseBlock s.disk s.nextb) (ospfsBlock s.nextb) chunk
        nextb := s.nextb + 1 } = some s') :
    Copied g s' (Function.update n i (n i + 1)) nodes i links mode (stored ++ chunk) ∧
      s'.nextinode = s.nextinode ∧ s'.hardlinks = s.hardlinks := by
  have hdata := h.drawn.laid.fresh hlast
  have hilt := h.lt
  have hpending : s.nextb ∈ insert s.nextb (∅ : Set Nat) := Set.mem_insert _ _
  have hcopy : ChangesOnly (blockBytes s.nextb) (eraseBlock s.disk s.nextb)
      (copy (eraseBlock s.disk s.nextb) (ospfsBlock s.nextb) chunk) := by
    refine (copy_changesOnly _ _ _).mono fun a ha => ?_
    rw [hdata.block] at ha
    simp only [blockBytes, Set.mem_Ico] at *
    omega
  have hfilled := (h.drawn.take hlast).pendingBlock hpending hcopy
  have hboth := (eraseBlock_changesOnly (m := s.disk) hdata).trans hcopy
  obtain ⟨hload, hstored⟩ := h.beside hlast hboth
  set disk := copy (eraseBlock s.disk s.nextb) (ospfsBlock s.nextb) chunk with hdisk
  have hpointers : HasPointers disk i := by
    rw [HasPointers, show oiFtype disk (inodeAt i) = _ from hload 4 (by decide)]
    exact h.hasPointers
  have hnext := storeblk_nextBlock ho hfilled.laid hilt
    (fun t => ⟨And.right, fun ht => ⟨hilt, ht⟩⟩) hpending hpointers hstore
  have hgrown := hfilled.grow rfl rfl hnext
  have hempty : insert s.nextb (∅ : Set Nat) \ {s.nextb} = ∅ :=
    Set.insert_sdiff_self_of_notMem (Set.notMem_empty _)
  rw [hempty] at hgrown
  have hkept : ∀ e ≤ 12, load32 s'.disk (inodeAt i + e) = load32 s.disk (inodeAt i + e) :=
    fun e he => (hnext.points.field hfilled.laid hilt he).trans (hload e he)
  refine ⟨⟨hgrown, ?_, (hkept 4 (by decide)).trans h.ftype, (hkept 8 (by decide)).trans h.nlink,
    (hkept 12 le_rfl).trans h.mode, fun k hk => ?_⟩, hnext.nextinode, hnext.hardlinks⟩
  · rw [Function.update_self, List.length_append]
    omega
  · rw [List.length_append] at hk
    rcases Nat.lt_or_ge k stored.length with hold | hnew
    · rw [List.getElem_append_left hold, ← hstored k hold]
      exact hnext.oldBytes (e := 0) hfilled.laid hilt rfl (by omega) (by omega)
    · rw [List.getElem_append_right hnew]
      refine (hnext.newBytes (e := 0) hfilled.laid hilt hpending (by omega) (by omega)).trans ?_
      have hindex : k % 1024 = k - stored.length := by omega
      have hmem : ospfsBlock s.nextb ≤ 1024 * s.nextb + k % 1024 + 0 ∧
          1024 * s.nextb + k % 1024 + 0 < ospfsBlock s.nextb + chunk.length := by
        rw [hdata.block]
        omega
      rw [hdisk]
      dsimp only
      rw [copy, if_pos hmem, hdata.block,
        show 1024 * s.nextb + k % 1024 + 0 - 1024 * s.nextb = k - stored.length by omega]
      exact List.getD_eq_getElem _ _ (by omega)

end Copied

/-- The loop stores all bytes. -/
theorem copyBlocks_drawn (ho : o.nblocks = g.nblocks)
    (h : Copied g s n nodes i links mode stored) (hwhole : stored.length = 1024 * n i)
    (hcopy : copyBlocks o (inodeAt i) (n i) bytes s = some s') :
    (∃ n', Drawn g s' n' ∅ ∅ (nodes.set i (.reg links mode (stored ++ bytes)))) ∧
      s'.nextinode = s.nextinode ∧ s'.hardlinks = s.hardlinks := by
  induction hbytes : bytes.length using Nat.strong_induction_on
    generalizing bytes s n stored with
  | _ length ih =>
      rw [copyBlocks] at hcopy
      obtain ⟨disk, hget, hrest⟩ := Option.bind_eq_some_iff.1 hcopy
      obtain ⟨hlt, rfl⟩ := getblk_some hget
      rw [ho] at hlt
      rw [if_pos rfl] at hrest
      dsimp only at hrest
      by_cases hend : bytes = []
      · rw [dif_pos hend] at hrest
        obtain rfl := Option.some.inj hrest
        have hfinish := (h.clear hlt).finish
        rw [hend, List.append_nil]
        rw [hwhole, Nat.mul_comm] at hfinish
        exact ⟨⟨n, hfinish⟩, rfl, rfl⟩
      · rw [dif_neg hend] at hrest
        obtain ⟨s₁, hstore, hnext⟩ := Option.bind_eq_some_iff.1 hrest
        have hpos := List.length_pos_of_ne_nil hend
        have htake : (bytes.take 1024).length = min 1024 bytes.length := List.length_take
        obtain ⟨hcopied, hnextinode, hhardlinks⟩ :=
          h.block ho hwhole (by omega) (by omega) hlt hstore
        have hcount := hcopied.count
        rw [Function.update_self, List.length_append] at hcount
        split_ifs at hnext with hshort
        · obtain rfl := Option.some.inj hnext
          have hfinish := hcopied.finish
          rw [List.take_of_length_le (by omega)] at hfinish ⊢
          rw [List.length_append, hwhole, Nat.mul_comm 1024 (n i)] at hfinish
          exact ⟨⟨_, hfinish⟩, hnextinode, hhardlinks⟩
        · have hdrop : (bytes.drop 1024).length = bytes.length - 1024 := List.length_drop
          rw [← Function.update_self i (n i + 1) n] at hnext
          have hround := ih (bytes.drop 1024).length (by omega) hcopied (by
            rw [Function.update_self, List.length_append]
            omega) hnext rfl
          rw [List.append_assoc, List.take_append_drop] at hround
          exact ⟨hround.1, hround.2.1.trans hnextinode, hround.2.2.trans hhardlinks⟩

end Cs111Labs.Ospfsformat
