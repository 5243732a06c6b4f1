import Cs111Labs.Ospfs.File
import Cs111Labs.Ospfs.NewEntries
import Mathlib.Data.List.TakeWhile

/-!
# Writing a regular file

Each round of `ospfs_write` copies bytes into one block of the file.
-/

namespace Cs111Labs.Ospfs

open Foundation Memory

variable {lossless : Prop} {g : Geometry} {m m' m'' : Memory} {own : Nat → Prop}
  {i off n : Nat} {buffer : UserBuffer} {R R' : Set Nat}

theorem Writes.refl (m : Memory) (i : Nat) : Writes m i ∅ m :=
  ⟨.refl m, fun _ h => absurd h (Set.notMem_empty _), fun _ h => absurd h (Set.notMem_empty _)⟩

theorem Writes.mono (hw : Writes m i R m') (hsub : R ⊆ R')
    (hsize : ∀ off ∈ R', off < oiSize m (inodeAt i))
    (hblock : ∀ off ∈ R', blocknoOf m i off ≠ 0) : Writes m i R' m' where
  changes := hw.changes.mono fun _ ⟨off, hoff, heq⟩ => ⟨off, hsub hoff, heq⟩
  size := hsize
  block := hblock

theorem Writes.oiSize (h : Stored lossless g m own) (hown : own i) (hw : Writes m i R m') :
    oiSize m' (inodeAt i) = oiSize m (inodeAt i) :=
  hw.load h hown (h.owners i hown) (k := 0) (by decide)

theorem Writes.blocknoOf (h : Stored lossless g m own) (hown : own i)
    (hw : Writes m i R m') (hoff : off < Ospfs.oiSize m (inodeAt i)) :
    Ospfs.blocknoOf m' i off = Ospfs.blocknoOf m i off := by
  have hfile := h.file i hown
  have hfile' := (hw.stored h hown).file i hown
  have huse := hfile.inUse (hfile.lt_blocks hoff)
  rw [blocknoOf_eq hfile.ftype hoff,
    blocknoOf_eq hfile'.ftype (hoff.trans_eq (hw.oiSize h hown).symm), blockNumber, blockNumber,
    (hw.spares h hown hown).target_eq h.safe hw.changes hown huse]

/-- While `P` holds, writing to a file leaves its bytes where they are. -/
structure Placed (i : Nat) (P : Memory → Prop) : Prop where
  keep : ∀ {m m' R}, P m → Writes m i R m' → P m'
  size : ∀ {m m' R}, P m → Writes m i R m' → oiSize m' (inodeAt i) = oiSize m (inodeAt i)
  blockno : ∀ {m m' R off}, P m → Writes m i R m' → off < oiSize m (inodeAt i) →
    blocknoOf m' i off = blocknoOf m i off
  injective : ∀ {m off off'}, P m → off < oiSize m (inodeAt i) →
    off' < oiSize m (inodeAt i) → blocknoOf m i off ≠ 0 →
    address m i off = address m i off' → off = off'

theorem placed_of_stored (lossless : Prop) (g : Geometry) (hown : own i) :
    Placed i (Stored lossless g · own) where
  keep h hw := hw.stored h hown
  size h hw := hw.oiSize h hown
  blockno h hw hoff := hw.blocknoOf h hown hoff
  injective h hoff hoff' hpos heq := (h.address_injective hown hown hoff hoff' hpos heq).2

namespace Placed

variable {P : Memory → Prop}

theorem address (hP : Placed i P) (h : P m) (hw : Writes m i R m')
    (hoff : off < oiSize m (inodeAt i)) : address m' i off = address m i off := by
  rw [address_eq, address_eq, hP.blockno h hw hoff]

theorem content (hP : Placed i P) (h : P m) (hw : Writes m i R m')
    (hoff : off < oiSize m (inodeAt i)) (hpos : blocknoOf m i off ≠ 0) (hR : off ∉ R) :
    content m' i off = content m i off := by
  unfold Ospfs.content
  rw [hP.address h hw hoff]
  refine hw.changes _ ?_
  rintro ⟨off', hoff', heq⟩
  rw [hP.injective h hoff (hw.size off' hoff') hpos heq] at hR
  exact hR hoff'

theorem trans (hP : Placed i P) (h : P m) (hw : Writes m i R m') (hw' : Writes m' i R' m'') :
    Writes m i (R ∪ R') m'' where
  changes := by
    refine (hw.changes.mono ?_).trans (hw'.changes.mono ?_)
    · rintro a ⟨off, hoff, heq⟩
      exact ⟨off, .inl hoff, heq⟩
    · rintro a ⟨off, hoff, rfl⟩
      have hsize := hw'.size off hoff
      rw [hP.size h hw] at hsize
      exact ⟨off, .inr hoff, hP.address h hw hsize⟩
  size := by
    rintro off (hoff | hoff)
    · exact hw.size off hoff
    · exact (hw'.size off hoff).trans_eq (hP.size h hw)
  block := by
    rintro off (hoff | hoff)
    · exact hw.block off hoff
    · have hsize := (hw'.size off hoff).trans_eq (hP.size h hw)
      rw [← hP.blockno h hw hsize]
      exact hw'.block off hoff

end Placed

/-! ## One round -/

theorem length_takeWhile_le {α : Type} (p : α → Bool) (xs : List α) :
    (xs.takeWhile p).length ≤ xs.length :=
  (List.takeWhile_sublist p).length_le

theorem copyFromUser_changesOnly (m : Memory) (dst : Nat) (buffer : UserBuffer)
    (start n : Nat) :
    ChangesOnly (Set.Ico dst (dst + n)) m (copyFromUser m dst buffer start n).2 := by
  have hlength := length_takeWhile_le Option.isSome
    ((List.range n).map fun i => buffer (start + i))
  simp only [List.length_map, List.length_range] at hlength
  refine (copy_changesOnly m dst _).mono fun a ha => ?_
  simp only [List.length_append, List.length_map, List.length_replicate, Set.mem_Ico] at *
  omega

/-- If all bytes can be read, all of them are copied. -/
theorem copyFromUser_ok {dst start : Nat} (h : (copyFromUser m dst buffer start n).1 = true) :
    ∀ t < n, (buffer (start + t)).isSome ∧
      (copyFromUser m dst buffer start n).2 (dst + t) = (buffer (start + t)).getD 0 := by
  simp only [copyFromUser, decide_eq_true_eq] at h
  set bytes := (List.range n).map fun i => buffer (start + i) with hbytes
  have hlength : bytes.length = n := by simp [hbytes]
  have hall : bytes.takeWhile Option.isSome = bytes := by
    refine (List.takeWhile_prefix _).eq_of_length ?_
    rw [h, hlength]
  intro t ht
  have hget : bytes.get ⟨t, hlength ▸ ht⟩ = buffer (start + t) := by simp [hbytes]
  refine ⟨?_, ?_⟩
  · rw [← hget]
    exact List.takeWhile_eq_self_iff.1 hall _ (List.get_mem _ _)
  · simp only [copyFromUser, ← hbytes, hall, hlength, Nat.sub_self, List.replicate_zero,
      List.append_nil, copy, List.length_map]
    rw [if_pos ⟨by omega, by omega⟩, Nat.add_sub_cancel_left]
    simp [hbytes, ht]

theorem chunk_le (fPos rest : Nat) :
    chunk fPos rest ≤ rest ∧ chunk fPos rest ≤ 1024 - fPos % 1024 := by
  unfold chunk
  split_ifs <;> omega

theorem chunk_pos {fPos rest : Nat} (h : 0 < rest) : 0 < chunk fPos rest := by
  unfold chunk
  split_ifs <;> omega

/-- A round writes bytes of one block. -/
theorem writes_of_copy (buffer : UserBuffer) (start : Nat) {fPos rest : Nat}
    (hpos : blocknoOf m i fPos ≠ 0)
    (hrest : 0 < rest) (hsize : fPos + rest ≤ oiSize m (inodeAt i)) :
    Writes m i (Set.Ico fPos (fPos + chunk fPos rest))
      (copyFromUser m (address m i fPos) buffer start (chunk fPos rest)).2 := by
  obtain ⟨hle, hblock⟩ := chunk_le fPos rest
  refine ⟨(copyFromUser_changesOnly m _ buffer start _).mono ?_, ?_, ?_⟩
  · intro a ha
    obtain ⟨hlo, hhi⟩ := Set.mem_Ico.1 ha
    refine ⟨fPos + (a - address m i fPos), Set.mem_Ico.2 ⟨by omega, by omega⟩, ?_⟩
    rw [address_add_of_block (by omega) (by omega)]
    omega
  · intro off hoff
    have hlast := (Set.mem_Ico.1 hoff).2
    omega
  · intro off hoff
    obtain ⟨hlo, hhi⟩ := Set.mem_Ico.1 hoff
    rw [blocknoOf_congr (show off / 1024 = fPos / 1024 by omega) (by omega)
      (by omega)]
    exact hpos

/-! ## The loop -/

/-- All bytes are written. -/
structure Copied (buffer : UserBuffer) (start fPos count : Nat) (m : Memory) (i : Nat) :
    Prop where
  readable : ∀ t < count, (buffer (start + t)).isSome
  bytes : ∀ t < count, content m i (fPos + t) = (buffer (start + t)).getD 0

theorem writeLoop_round {count rounds amount fPos : Nat} (hlt : amount < count)
    (hpos : fPos < 2 ^ 32) :
    writeLoop (inodeAt i) buffer count (rounds + 1) amount fPos m =
      if blocknoOf m i fPos = 0 then (.error .eio, fPos, m)
      else if (copyFromUser m (address m i fPos) buffer amount
          (chunk fPos (count - amount))).1 then
        writeLoop (inodeAt i) buffer count rounds (amount + chunk fPos (count - amount))
          (fPos + chunk fPos (count - amount))
          (copyFromUser m (address m i fPos) buffer amount (chunk fPos (count - amount))).2
      else (.error .efault, fPos,
        (copyFromUser m (address m i fPos) buffer amount (chunk fPos (count - amount))).2) := by
  have hblockno : ospfsInodeBlockno m (inodeAt i) fPos = blocknoOf m i fPos := rfl
  have haddress : ospfsBlock (blocknoOf m i fPos) + fPos % 1024 = address m i fPos := rfl
  rw [writeLoop, if_pos hlt, Nat.mod_eq_of_lt hpos]
  dsimp only
  rw [hblockno, haddress]
  split_ifs with hzero hok
  · rfl
  · split <;> simp_all
  · split <;> simp_all

theorem writeLoop_done {oi count rounds : Nat} :
    writeLoop oi buffer count rounds count n m = (.ok count, n, m) := by
  cases rounds with
  | zero => rfl
  | succ rounds => rw [writeLoop, if_neg (lt_irrefl count)]

/-- The result of writing `rest` bytes at `fPos`. -/
def Written (buffer : UserBuffer) (count amount fPos : Nat) (m : Memory) (i : Nat)
    (r : Except Errno Nat × Nat × Memory) : Prop :=
  ∃ R ⊆ Set.Ico fPos (fPos + (count - amount)), Writes m i R r.2.2 ∧
    ∀ result, r.1 = .ok result → result = count ∧ r.2.1 = fPos + (count - amount) ∧
      R = Set.Ico fPos (fPos + (count - amount)) ∧
      Copied buffer amount fPos (count - amount) r.2.2 i

theorem written_done (buffer : UserBuffer) (count fPos : Nat) (m : Memory) (i : Nat) :
    Written buffer count count fPos m i (.ok count, fPos, m) := by
  refine ⟨∅, Set.empty_subset _, .refl m i, fun result hresult => ?_⟩
  injection hresult with hresult
  rw [Nat.sub_self]
  exact ⟨hresult.symm, rfl, by simp, fun t ht => absurd ht (Nat.not_lt_zero t),
    fun t ht => absurd ht (Nat.not_lt_zero t)⟩

theorem writeLoop_written {P : Memory → Prop} (hP : Placed i P) {count : Nat}
    (rounds amount fPos : Nat) (h : P m) (hamount : amount ≤ count)
    (hrounds : count - amount ≤ rounds)
    (hsize : fPos + (count - amount) ≤ oiSize m (inodeAt i)) :
    Written buffer count amount fPos m i
      (writeLoop (inodeAt i) buffer count rounds amount fPos m) := by
  induction rounds generalizing m amount fPos with
  | zero =>
      obtain rfl : amount = count := by omega
      exact written_done buffer amount fPos m i
  | succ rounds ih =>
      rcases hamount.lt_or_eq with hlt | rfl
      · have hsmall : fPos < 2 ^ 32 := by
          have hload := load32_lt m (inodeAt i)
          change fPos + (count - amount) ≤ load32 m (inodeAt i) at hsize
          omega
        rw [writeLoop_round hlt hsmall]
        split_ifs with hzero hok
        · exact ⟨∅, Set.empty_subset _, .refl m i, nofun⟩
        · have hw := writes_of_copy buffer amount hzero (by omega) hsize
          obtain ⟨hle, -⟩ := chunk_le fPos (count - amount)
          have hpos : 0 < chunk fPos (count - amount) := chunk_pos (by omega)
          have hcopied := copyFromUser_ok hok
          set n := chunk fPos (count - amount)
          set m₁ := (copyFromUser m (address m i fPos) buffer amount n).2
          have h₁ : P m₁ := hP.keep h hw
          obtain ⟨R, hR, hw', hresult⟩ := ih (m := m₁) (amount + n) (fPos + n) h₁ (by omega)
            (by omega) (by rw [hP.size h hw]; omega)
          refine ⟨Set.Ico fPos (fPos + n) ∪ R, ?_, hP.trans h hw hw', ?_⟩
          · rintro off (hoff | hoff)
            · simp only [Set.mem_Ico] at *
              omega
            · have hoff' := hR hoff
              simp only [Set.mem_Ico] at *
              omega
          · intro result hok'
            obtain ⟨hcount, hpos', hall, hreadable, hbytes⟩ := hresult result hok'
            refine ⟨hcount, hpos'.trans (by omega), ?_, ?_, ?_⟩
            · ext off
              rw [hall, Set.mem_union]
              simp only [Set.mem_Ico]
              omega
            · intro t ht
              by_cases htn : t < n
              · exact (hcopied t htn).1
              · have hrest := hreadable (t - n) (by omega)
                rwa [show amount + n + (t - n) = amount + t by omega] at hrest
            · intro t ht
              by_cases htn : t < n
              · have hoff : fPos + t < oiSize m (inodeAt i) := by omega
                have hkeep : content (writeLoop (inodeAt i) buffer count rounds (amount + n)
                    (fPos + n) m₁).2.2 i (fPos + t) = content m₁ i (fPos + t) := by
                  refine hP.content h₁ hw' (by rwa [hP.size h hw]) ?_ fun hmem => ?_
                  · rw [hP.blockno h hw hoff]
                    exact hw.block _ (Set.mem_Ico.2 ⟨by omega, by omega⟩)
                  · have hlow := (Set.mem_Ico.1 (hR hmem)).1
                    omega
                rw [hkeep]
                unfold content
                rw [hP.address h hw hoff, address_add_of_block
                  (by have := chunk_le fPos (count - amount); omega) hoff]
                exact (hcopied t htn).2
              · have hrest := hbytes (t - n) (by omega)
                rwa [show fPos + n + (t - n) = fPos + t by omega,
                  show amount + n + (t - n) = amount + t by omega] at hrest
        · have hw := writes_of_copy buffer amount hzero (by omega) hsize
          obtain ⟨hle, -⟩ := chunk_le fPos (count - amount)
          exact ⟨_, Set.Ico_subset_Ico_right (by omega), hw, nofun⟩
      · rw [writeLoop_done]
        exact written_done buffer amount fPos m i

/-! ## The whole call -/

/-- Where `ospfs_write` starts to write. -/
def writePos (m : Memory) (i : Nat) (append : Bool) (fPos : Nat) : Nat :=
  if append then oiSize m (inodeAt i) else fPos

theorem ospfsWrite_eq {append : Bool} {count fPos : Nat} (hfits : g.Fits m)
    (hi : i < g.ninodes) :
    ospfsWrite m i append buffer count fPos =
      if count + writePos m i append fPos > oiSize m (inodeAt i) then
        match changeSize m (inodeAt i) ((count + writePos m i append fPos) % 2 ^ 32) with
        | (some errno, m₁) => (.error errno, writePos m i append fPos, m₁)
        | (none, m₁) =>
            writeLoop (inodeAt i) buffer count count 0 (writePos m i append fPos) m₁
      else writeLoop (inodeAt i) buffer count count 0 (writePos m i append fPos) m := by
  unfold ospfsWrite
  rw [hfits.ospfsInode hi]
  rfl

/-- The file is resized first and then written. -/
theorem ospfsWrite_cases (buffer : UserBuffer) {append : Bool} {count fPos : Nat}
    (h : Stored lossless g m own) (hown : own i)
    (hgrow : oiSize m (inodeAt i) < count + writePos m i append fPos →
      count + writePos m i append fPos < 2 ^ 32 ∧
        Resizable lossless g own m i (count + writePos m i append fPos)) :
    ∃ m₁, Resized lossless g own i m m₁ ∧
      (ospfsWrite m i append buffer count fPos =
            (.error .enospc, writePos m i append fPos, m₁) ∧
          oiSize m (inodeAt i) < count + writePos m i append fPos ∧
          oiSize m₁ (inodeAt i) = oiSize m (inodeAt i) ∨
        oiSize m₁ (inodeAt i) =
            max (oiSize m (inodeAt i)) (count + writePos m i append fPos) ∧
          Written buffer count 0 (writePos m i append fPos) m₁ i
            (ospfsWrite m i append buffer count fPos)) := by
  rw [ospfsWrite_eq h.fits (h.owners i hown)]
  by_cases hlt : count + writePos m i append fPos > oiSize m (inodeAt i)
  · obtain ⟨hsmall, r, m₁, hchange, hresized, hresult⟩ := hgrow hlt
    rw [if_pos hlt, Nat.mod_eq_of_lt hsmall, hchange]
    refine ⟨m₁, hresized, ?_⟩
    rcases hresult with ⟨rfl, hsize⟩ | ⟨rfl, hsize⟩
    · refine .inr ⟨hsize.trans (max_eq_right hlt.le).symm, ?_⟩
      exact writeLoop_written (placed_of_stored lossless g hown) count 0 _ hresized.stored (Nat.zero_le _) le_rfl
        (by omega)
    · exact .inl ⟨rfl, hlt, hsize⟩
  · rw [if_neg hlt]
    refine ⟨m, .refl h, .inr ⟨(max_eq_left (by omega)).symm, ?_⟩⟩
    exact writeLoop_written (placed_of_stored lossless g hown) count 0 _ h (Nat.zero_le _) le_rfl (by omega)

/-- Writing keeps the invariant. -/
theorem ospfsWrite_sound {append : Bool} {count fPos : Nat} (h : Sound lossless g m)
    (hown : owner g m i) (hdir : ¬ IsDir g m i)
    (hgrow : oiSize m (inodeAt i) < count + writePos m i append fPos →
      count + writePos m i append fPos < 2 ^ 32 ∧
        Resizable lossless g (owner g m) m i (count + writePos m i append fPos)) :
    Sound lossless g (ospfsWrite m i append buffer count fPos).2.2 := by
  obtain ⟨m₁, hresized, hcases⟩ := ospfsWrite_cases buffer h.stored hown hgrow
  have h₁ := h.resized hown.1 hresized fun hd => absurd hd hdir
  rcases hcases with ⟨heq, -⟩ | ⟨-, R, -, hwrites, -⟩
  · rw [heq]
    exact h₁
  · have hlink := hresized.field h.stored hown.1 (k := 8) (by decide) (by decide)
    have hftype := hresized.field h.stored hown.1 (k := 4) (by decide) (by decide)
    refine h₁.writes ⟨hown.1, ?_, ?_⟩ (fun hd => hdir ⟨hd.1, ?_, ?_⟩) hwrites
    · exact fun heq => hown.2.1 (hlink.symm.trans heq)
    · exact fun heq => hown.2.2 (hftype.symm.trans heq)
    · exact fun heq => hd.2.1 (hlink.trans heq)
    · exact hftype.symm.trans hd.2.2

/-! ## Changing the size and the mode -/

theorem setOiMode_changesOnly (v : Nat) :
    ChangesOnly (fieldBytes i) m (setOiMode m (inodeAt i) v) :=
  (store32_changesOnly m _ v).mono fun a ha => by
    simp only [fieldBytes, Set.mem_Ico] at *
    omega

theorem setOiMode_field {v j : Nat} {k : Nat} (hk : k = 4 ∨ k = 8) :
    load32 (setOiMode m (inodeAt i) v) (inodeAt j + k) = load32 m (inodeAt j + k) :=
  (store32_changesOnly m _ v).load32 fun c hc hmem => by
    simp only [inodeAt, Set.mem_Ico] at hmem
    omega

theorem setOiMode_sound {v : Nat} (h : Sound lossless g m) (hi : i < g.ninodes)
    (hdir : ¬ IsDir g m i) : Sound lossless g (setOiMode m (inodeAt i) v) := by
  have hchanges := setOiMode_changesOnly (m := m) (i := i) v
  refine h.of_same (h.stored.field hi hchanges (setOiMode_field (.inl rfl)))
    (fun j _ => setOiMode_field (.inr rfl)) (fun j _ => setOiMode_field (.inl rfl))
    (by omega) ?_ ?_
  · refine fun p => slot_eq_of_inode h.stored hi (fun _ hd => hd.owner) h.entrySize
      (hchanges.mono (fieldBytes_subset i)) hdir fun hd => hdir ?_
    exact (isDir_congr (fun j _ => setOiMode_field (.inr rfl))
      fun j _ => setOiMode_field (.inl rfl)).1 hd
  · intro d hd
    have hdi : d ≠ i := fun heq => hdir (heq ▸ hd)
    rw [show oiSize (setOiMode m (inodeAt i) v) (inodeAt d) = _ from
      load_of_inode (hchanges.mono (fieldBytes_subset i)) hdi (n := 0) (by decide)]
    exact h.entrySize d hd

/-- The file is resized, and then the mode may change. -/
theorem ospfsNotifyChange_cases {attr : Iattr} (setattr : Option Errno)
    (h : Stored lossless g m own) (hown : own i)
    (hreg : oiFtype m (inodeAt i) ≠ ftypeDir)
    (hsize : ∀ s, attr.iaSize = some s →
      s < 2 ^ 32 ∧ Resizable lossless g own m i s) :
    ∃ m₁, Resized lossless g own i m m₁ ∧
      (ospfsNotifyChange m i attr setattr = (some .enospc, m₁) ∧
          oiSize m₁ (inodeAt i) = oiSize m (inodeAt i) ∨
        (ospfsNotifyChange m i attr setattr).1 = setattr ∧
          oiSize m₁ (inodeAt i) = attr.iaSize.getD (oiSize m (inodeAt i)) ∧
          ((ospfsNotifyChange m i attr setattr).2 = m₁ ∨
            ∃ mode, (ospfsNotifyChange m i attr setattr).2 =
              setOiMode m₁ (inodeAt i) mode)) := by
  unfold ospfsNotifyChange
  rw [h.fits.ospfsInode (h.owners i hown)]
  cases hs : attr.iaSize with
  | none =>
      refine ⟨m, .refl h, .inr ?_⟩
      cases attr.iaMode with
      | none => exact ⟨rfl, rfl, .inl rfl⟩
      | some mode => exact ⟨rfl, rfl, .inr ⟨mode, rfl⟩⟩
  | some s =>
      obtain ⟨hsmall, r, m₁, hchange, hresized, hresult⟩ := hsize s hs
      simp only [if_neg hreg, Nat.mod_eq_of_lt hsmall, hchange]
      refine ⟨m₁, hresized, ?_⟩
      rcases hresult with ⟨rfl, hnew⟩ | ⟨rfl, hsame⟩
      · refine .inr ?_
        cases attr.iaMode with
        | none => exact ⟨rfl, hnew, .inl rfl⟩
        | some mode => exact ⟨rfl, hnew, .inr ⟨mode, rfl⟩⟩
      · exact .inl ⟨rfl, hsame⟩

theorem ospfsNotifyChange_sound {attr : Iattr} {setattr : Option Errno}
    (h : Sound lossless g m) (hown : owner g m i) (hreg : oiFtype m (inodeAt i) ≠ ftypeDir)
    (hsize : ∀ s, attr.iaSize = some s →
      s < 2 ^ 32 ∧ Resizable lossless g (owner g m) m i s) :
    Sound lossless g (ospfsNotifyChange m i attr setattr).2 := by
  obtain ⟨m₁, hresized, hcases⟩ :=
    ospfsNotifyChange_cases setattr h.stored hown hreg hsize
  have hdir : ¬ IsDir g m i := fun hd => hreg hd.2.2
  have h₁ := h.resized hown.1 hresized fun hd => absurd hd hdir
  rcases hcases with ⟨heq, -⟩ | ⟨-, -, heq | ⟨mode, heq⟩⟩
  · rw [heq]
    exact h₁
  · rw [heq]
    exact h₁
  · rw [heq]
    refine setOiMode_sound h₁ hown.1 fun hd => hreg ?_
    exact (hresized.field h.stored hown.1 (by decide) (by decide)).symm.trans hd.2.2

end Cs111Labs.Ospfs
