import Cs111Labs.Foundation.Edits
import Cs111Labs.Ospfs.Bystanders

/-!
# The bytes of a file and its history

`add_block` clears a block when it is allocated, and `change_size` clears nothing
behind the size in the last block.  So a byte is cleared when a size change removes
its block.
-/

namespace Cs111Labs.Ospfs

open Foundation Memory

variable {lossless : Prop} {g : Geometry} {m m' : Memory} {own : Nat → Prop} {i pos : Nat}
  {history : List (Edit UInt8)} {items : List UInt8} {call : Call}

/-! ## The edits of a file -/

/-- The disk, and for the files that were created in the run the edits since then.  A
file for which a call has failed is not followed further. -/
structure Traced where
  disk : Memory
  edits : Nat → Option (List (Edit UInt8))

/-- The bytes that `ospfs_write` is given. -/
def userBytes (buffer : UserBuffer) (count : Nat) : List UInt8 :=
  (List.range count).map fun t => (buffer t).getD 0

theorem length_userBytes (buffer : UserBuffer) (count : Nat) :
    (userBytes buffer count).length = count := by
  rw [userBytes, List.length_map, List.length_range]

/-- What a successful call edits in a file. -/
def Call.edits (m : Memory) (i : Nat) : Call → Option (List (Edit UInt8))
  | write ino append buffer count fPos =>
      if ino = i then
        match (ospfsWrite m ino append buffer count fPos).1 with
        | .ok _ => some [.wrote (writePos m ino append fPos) (userBytes buffer count)]
        | .error _ => none
      else some []
  | notifyChange ino attr setattr =>
      if ino = i then
        match (ospfsNotifyChange m ino attr setattr).1 with
        | none => some (attr.iaSize.toList.map .resized)
        | some _ => none
      else some []
  | create .. | symlink .. | link .. | unlink .. => some []

def Call.trace (g : Geometry) (call : Call) (s : Traced) : Option Traced := some
  { disk := call.exec s.disk
    edits := fun i =>
      if IsReg g (call.exec s.disk) i then
        if oiNlink s.disk (inodeAt i) = 0 then some []
        else
          match s.edits i, call.edits s.disk i with
          | some older, some new => some (new ++ older)
          | _, _ => none
      else none }

/-- A size change to this place or below removes the block of the byte. -/
def blockStart (k : Nat) : Nat := 1024 * (k / 1024)

/-- The blocks of the file have what the edits leave in them. -/
structure Held (m : Memory) (i : Nat) (history : List (Edit UInt8)) : Prop where
  inside : ∀ k < 1024 * blockCount m i, blockByte m i k = lookup blockStart 0 history k
  outside : ∀ k, 1024 * blockCount m i ≤ k → lookup blockStart 0 history k = 0

/-! ## Steps -/

theorem StoredFile.blockStart_lt_iff (h : StoredFile lossless m i) (k : Nat) :
    blockStart k < oiSize m (inodeAt i) ↔ k < 1024 * blockCount m i := by
  have hsize := h.size_le
  unfold Slot.maxfileblks at hsize
  unfold blockStart blockCount ospfsSize2nblocks
  omega

theorem Held.sameFile (h : Held m i history) (hsame : SameFile m m' i) : Held m' i history where
  inside k hk := by
    rw [hsame.blockCount_eq] at hk
    rw [hsame.bytes k hk, h.inside k hk]
  outside k hk := h.outside k (by rwa [hsame.blockCount_eq] at hk)

theorem Held.resized (h : Held m i history) (hstored : Stored lossless g m own) (hown : own i)
    (hr : Resized lossless g own i m m') :
    Held m' i (.resized (oiSize m' (inodeAt i)) :: history) := by
  have hstart := (hr.stored.file i hown).blockStart_lt_iff
  constructor
  · intro k hk
    rw [lookup_resized_above ((hstart k).2 hk)]
    by_cases hold : k < 1024 * blockCount m i
    · rw [hr.blockByte hstored (hstored.owners i hown) hown hold hk, h.inside k hold]
    · rw [hr.fresh k (not_lt.1 hold) hk, h.outside k (not_lt.1 hold)]
  · intro k hk
    exact lookup_resized (not_lt.1 fun hlt => absurd ((hstart k).1 hlt) (not_lt.2 hk))

theorem Held.grown (h : Held m i history) (hstored : Stored lossless g m own) (hown : own i)
    (hr : Resized lossless g own i m m')
    (hle : oiSize m (inodeAt i) ≤ oiSize m' (inodeAt i)) : Held m' i history := by
  have hstart := (hr.stored.file i hown).blockStart_lt_iff
  have hresized := h.resized hstored hown hr
  constructor
  · intro k hk
    rw [hresized.inside k hk, lookup_resized_above ((hstart k).2 hk)]
  · intro k hk
    refine h.outside k (not_lt.1 fun hold => ?_)
    have hlt := ((hstored.file i hown).blockStart_lt_iff k).2 hold
    exact absurd ((hstart k).1 (hlt.trans_le hle)) (not_lt.2 hk)

theorem Held.writes (h : Held m i history) (hstored : Stored lossless g m own) (hown : own i)
    (hw : Writes m i (Set.Ico pos (pos + items.length)) m')
    (hbytes : ∀ t < items.length, content m' i (pos + t) = items.getD t 0) :
    Held m' i (.wrote pos items :: history) := by
  have hfile' := (hw.stored hstored hown).file i hown
  have hsize := hw.oiSize hstored hown
  have hcount : blockCount m' i = blockCount m i := congrArg ospfsSize2nblocks hsize
  constructor
  · intro k hk
    rw [hcount] at hk
    by_cases hmem : pos ≤ k ∧ k < pos + items.length
    · have hbyte := hbytes (k - pos) (by omega)
      rw [Nat.add_sub_cancel' hmem.1] at hbyte
      rw [lookup_wrote hmem, ← hbyte,
        content_eq_block hfile'.ftype ((hw.size k hmem).trans_eq hsize.symm)]
    · rw [hw.blockByte hstored hown hown hk fun _ => hmem, h.inside k hk,
        lookup_wrote_outside hmem]
  · intro k hk
    rw [hcount] at hk
    have hmem : ¬ (pos ≤ k ∧ k < pos + items.length) := fun hmem => by
      have hlt := (hstored.file i hown).lt_blocks (hw.size k hmem)
      omega
    rw [lookup_wrote_outside hmem, h.outside k hk]

/-! ## Calls -/

structure Follows (m : Memory) (i : Nat) (history : List (Edit UInt8)) : Prop where
  size : oiSize m (inodeAt i) = arraySize history
  held : Held m i history

theorem Follows.of_empty (hsize : oiSize m (inodeAt i) = 0) : Follows m i [] := by
  refine ⟨hsize, ⟨fun k hk => ?_, fun _ _ => rfl⟩⟩
  rw [blockCount_of_size hsize] at hk
  exact absurd hk (Nat.not_lt_zero k)

theorem Follows.sameFile (h : Follows m i history) (hsame : SameFile m m' i) :
    Follows m' i history :=
  ⟨hsame.size.trans h.size, h.held.sameFile hsame⟩

theorem Follows.write {append : Bool} {buffer : UserBuffer} {count fPos result : Nat}
    (hf : Follows m i history) (h : Sound lossless g m) (hi : IsReg g m i)
    (hserves : (Call.write i append buffer count fPos).Serves lossless g m)
    (hok : (ospfsWrite m i append buffer count fPos).1 = .ok result) :
    Follows (ospfsWrite m i append buffer count fPos).2.2 i
      (.wrote (writePos m i append fPos) (userBytes buffer count) :: history) := by
  obtain ⟨m₁, hresized, hcases⟩ := ospfsWrite_cases buffer h.stored hi.owner
    fun hlt => hserves i _ (if_pos hlt)
  rcases hcases with ⟨heq, -⟩ | ⟨hsize, R, -, hwrites, hresult⟩
  · rw [heq] at hok
    cases hok
  · obtain ⟨-, -, rfl, hcopied⟩ := hresult result hok
    have hw : Writes m₁ i (Set.Ico (writePos m i append fPos)
        (writePos m i append fPos + (userBytes buffer count).length))
        (ospfsWrite m i append buffer count fPos).2.2 := by
      rwa [length_userBytes]
    have hgrown := hf.held.grown h.stored hi.owner hresized (by omega)
    refine ⟨?_, hgrown.writes hresized.stored hi.owner hw fun t ht => ?_⟩
    · rw [hw.oiSize hresized.stored hi.owner, hsize, arraySize, length_userBytes, hf.size,
        Nat.add_comm count]
    · rw [length_userBytes] at ht
      rw [hcopied.bytes t ht, Nat.zero_add, userBytes]
      simp [ht]

theorem Follows.notifyChange {attr : Iattr} {setattr : Option Errno}
    (hf : Follows m i history) (h : Sound lossless g m) (hi : IsReg g m i)
    (hserves : (Call.notifyChange i attr setattr).Serves lossless g m)
    (hok : (ospfsNotifyChange m i attr setattr).1 = none) :
    Follows (ospfsNotifyChange m i attr setattr).2 i
      (attr.iaSize.toList.map .resized ++ history) := by
  have hrequest : ∀ s, attr.iaSize = some s →
      s < 2 ^ 32 ∧ Resizable lossless g (owner g m) m i s := fun s hs =>
    hserves i s (by simp [Call.request, hs])
  obtain ⟨m₁, hresized, hcases⟩ :=
    ospfsNotifyChange_cases setattr h.stored hi.owner hi.ne_dir hrequest
  rcases hcases with ⟨heq, -⟩ | ⟨-, hsize, hafter⟩
  · rw [heq] at hok
    cases hok
  · have hfollows : Follows m₁ i (attr.iaSize.toList.map .resized ++ history) := by
      cases hs : attr.iaSize with
      | none =>
          rw [hs] at hsize
          exact ⟨hsize.trans hf.size,
            hf.held.grown h.stored hi.owner hresized (le_of_eq hsize.symm)⟩
      | some size =>
          rw [hs] at hsize
          have hheld := hf.held.resized h.stored hi.owner hresized
          rw [hsize] at hheld
          exact ⟨hsize, hheld⟩
    rcases hafter with heq | ⟨mode, heq⟩
    · rwa [heq]
    · rw [heq]
      exact hfollows.sameFile (sameFile_of_field hresized.stored hi.1 hi.owner
        (setOiMode_changesOnly mode) (setOiMode_field (.inl rfl)))

/-! ## Runs -/

structure Traced.Inv (g : Geometry) (s : Traced) : Prop where
  sound : Sound False g s.disk
  file : ∀ i history, s.edits i = some history →
    IsReg g s.disk i ∧ Follows s.disk i history

/-- A call that edits nothing in a file leaves it alone. -/
theorem Call.follows (h : Sound lossless g m) (hp : call.Promised g m)
    (hserves : call.Serves lossless g m) (hi : IsReg g m i) (hi' : IsReg g (call.exec m) i)
    (hf : Follows m i history) {new : List (Edit UInt8)} (hnew : call.edits m i = some new) :
    Follows (call.exec m) i (new ++ history) := by
  have hsame : (i = call.file →
      ∃ d name, call = .unlink d name i ∧ oiNlink (call.exec m) (inodeAt i) ≠ 0) →
      Follows (call.exec m) i history := fun hother =>
    hf.sameFile (h.sameFile hp hserves hi hother)
  cases call with
  | create dir name mode newInode =>
      cases hnew
      exact hsame fun heq => absurd hp.1 fun hd => hi.not_isDir (heq ▸ hd)
  | symlink dir name symname newInode =>
      cases hnew
      exact hsame fun heq => absurd hp.1 fun hd => hi.not_isDir (heq ▸ hd)
  | link src dir name =>
      cases hnew
      exact hsame fun heq => absurd hp.1 fun hd => hi.not_isDir (heq ▸ hd)
  | unlink dir name ino =>
      cases hnew
      refine hsame fun heq => ⟨dir, name, ?_, hi'.2.1⟩
      rw [heq]
      rfl
  | write ino append buffer count fPos =>
      by_cases hino : ino = i
      · subst hino
        simp only [Call.edits, if_true] at hnew
        split at hnew
        · rename_i result hok
          cases hnew
          exact hf.write h hi hserves hok
        · cases hnew
      · rw [Call.edits, if_neg hino] at hnew
        cases hnew
        exact hsame fun heq => absurd heq.symm hino
  | notifyChange ino attr setattr =>
      by_cases hino : ino = i
      · subst hino
        simp only [Call.edits, if_true] at hnew
        split at hnew
        · rename_i hok
          cases hnew
          exact hf.notifyChange h hi hserves hok
        · cases hnew
      · rw [Call.edits, if_neg hino] at hnew
        cases hnew
        exact hsame fun heq => absurd heq.symm hino

theorem Traced.Inv.step {s s' : Traced} (h : s.Inv g) (hp : call.Promised g s.disk)
    (hmoderate : call.Moderate s.disk) (hstep : call.trace g s = some s') : s'.Inv g := by
  obtain rfl := Option.some.inj hstep
  have hserves := hmoderate.serves h.sound hp
  refine ⟨h.sound.exec hp hserves, fun i history hedits => ?_⟩
  dsimp only at hedits ⊢
  split_ifs at hedits with hreg hfree
  · obtain rfl := Option.some.inj hedits
    exact ⟨hreg, .of_empty (h.sound.size_new hp hserves hfree hreg)⟩
  · split at hedits
    · rename_i older new holder hnew
      obtain rfl := Option.some.inj hedits
      obtain ⟨hi, hf⟩ := h.file i older holder
      exact ⟨hreg, call.follows h.sound hp hserves hi hreg hf hnew⟩
    · cases hedits

/-- Runs that start with a formatted disk. -/
def Traced.Run (g : Geometry) (first : Memory) (s : Traced) : Prop :=
  Reaches (Call.trace g) (fun call s => call.Promised g s.disk ∧ call.Moderate s.disk)
    ⟨first, fun _ => none⟩ s

theorem Traced.Run.inv {first : Memory} {s : Traced} (hfirst : Formatted g first)
    (hrun : s.Run g first) : s.Inv g :=
  hrun.invariant ⟨hfirst.sound False, nofun⟩
    fun _ _ _ h hallowed hstep => h.step hallowed.1 hallowed.2 hstep

theorem Traced.Inv.content {s : Traced} (h : s.Inv g) (hi : s.edits i = some history) {k : Nat}
    (hk : k < oiSize s.disk (inodeAt i)) :
    content s.disk i k = lookup blockStart 0 history k := by
  have hreg := (h.file i history hi).1
  have hfile := h.sound.stored.file i hreg.owner
  rw [content_eq_block hfile.ftype hk]
  exact (h.file i history hi).2.held.inside k (hfile.lt_blocks hk)

theorem blockStart_le (k : Nat) : blockStart k ≤ k := Nat.mul_div_le k 1024

/-- The bytes of a file are those last written and 0 elsewhere exactly if none of them was
written, cut off within its block and not cleared since. -/
theorem unwritten_zero_iff {first : Memory} {s : Traced} (hfirst : Formatted g first)
    (hrun : s.Run g first) (hi : s.edits i = some history) :
    (∀ k < oiSize s.disk (inodeAt i), content s.disk i k = lastWritten 0 history k) ↔
      ∀ k < arraySize history, ¬ Stale blockStart 0 history k := by
  have hinv := hrun.inv hfirst
  rw [← (hinv.file i history hi).2.size]
  refine forall_congr' fun k => forall_congr' fun hk => ?_
  rw [hinv.content hi hk]
  exact lookup_eq_lastWritten_iff (blockStart_le k)

theorem moderate_of_request {s : Nat} (hnot : ∀ d name ino, call ≠ .unlink d name ino)
    (hrequest : call.request m = some (i, s)) (hsize : oiSize m (inodeAt i) ≤ 10 * 1024)
    (hs : s ≤ 10 * 1024) : call.Moderate m := by
  have hdirect : call.Direct m := fun i' s' hrequest' => by
    rw [hrequest] at hrequest'
    cases hrequest'
    exact ⟨hsize, hs⟩
  cases call with
  | unlink d name ino => exact absurd rfl (hnot d name ino)
  | create | symlink | link | write | notifyChange => exact hdirect

theorem Traced.Run.edit {first : Memory} {s : Traced} {new : List (Edit UInt8)}
    (h : s.Run g first) (hdisk : s.disk = m) (hi : s.edits i = some history) (call : Call)
    (hp : call.Promised g m) (hmoderate : call.Moderate m)
    (hlive : oiNlink m (inodeAt i) ≠ 0) (hreg : IsReg g (call.exec m) i)
    (hnew : call.edits m i = some new) :
    ∃ s' : Traced, s'.Run g first ∧ s'.disk = call.exec m ∧
      s'.edits i = some (new ++ history) := by
  subst hdisk
  refine ⟨_, Reaches.next h call ⟨hp, hmoderate⟩ rfl, rfl, ?_⟩
  dsimp only
  rw [if_pos hreg, if_neg hlive, hi, hnew]

theorem Traced.Run.new {first : Memory} {s : Traced} (h : s.Run g first) (hdisk : s.disk = m)
    (call : Call) (hp : call.Promised g m) (hmoderate : call.Moderate m)
    (hfree : oiNlink m (inodeAt i) = 0) (hreg : IsReg g (call.exec m) i) :
    ∃ s' : Traced, s'.Run g first ∧ s'.disk = call.exec m ∧ s'.edits i = some [] := by
  subst hdisk
  refine ⟨_, Reaches.next h call ⟨hp, hmoderate⟩ rfl, rfl, ?_⟩
  dsimp only
  rw [if_pos hreg, if_pos hfree]

/-! ## A file is written, and then cut and grown by one byte -/

def createCall : Call := .create 1 [97] 420 true

def writeCall : Call := .write 2 false (fun _ => some 7) 2 0

def cutCall : Call := .notifyChange 2 { iaSize := some 1 } none

def growCall : Call := .notifyChange 2 { iaSize := some 2 } none

def createdDisk : Memory := createCall.exec emptyDisk

def writtenDisk : Memory := writeCall.exec createdDisk

def cutDisk : Memory := cutCall.exec writtenDisk

def grownDisk : Memory := growCall.exec cutDisk

theorem createCall_moderate : createCall.Moderate emptyDisk :=
  moderate_of_request (i := 1) (s := 128) nofun (by decide) (by decide) (by decide)

theorem isReg_created : IsReg emptyGeometry createdDisk 2 ∧ IsReg emptyGeometry writtenDisk 2 ∧
    IsReg emptyGeometry cutDisk 2 ∧ IsReg emptyGeometry grownDisk 2 := by
  decide

theorem grown_run : ∃ s : Traced, s.Run emptyGeometry emptyDisk ∧ s.disk = grownDisk ∧
    s.edits 2 = some [.resized 2, .resized 1, .wrote 0 [7, 7]] := by
  obtain ⟨hcreated, hwritten, hcut, hgrown⟩ := isReg_created
  have hp : createCall.Promised emptyGeometry emptyDisk := ⟨by decide, by decide⟩
  obtain ⟨s, hrun, hdisk, hi⟩ := Traced.Run.new .start (Eq.refl emptyDisk) createCall hp
    createCall_moderate (by decide) hcreated
  have hwrite : writeCall.Moderate createdDisk :=
    moderate_of_request (i := 2) (s := 2) nofun (by decide) (by decide)
      (by decide)
  have hwrote : writeCall.edits createdDisk 2 = some [.wrote 0 [7, 7]] := by decide
  obtain ⟨s, hrun, hdisk, hi⟩ :=
    hrun.edit hdisk hi writeCall hcreated hwrite hcreated.2.1 hwritten hwrote
  have hshrink : cutCall.Moderate writtenDisk :=
    moderate_of_request (i := 2) (s := 1) nofun rfl (by decide) (by decide)
  have hshrank : cutCall.edits writtenDisk 2 = some [.resized 1] := by decide
  obtain ⟨s, hrun, hdisk, hi⟩ :=
    hrun.edit hdisk hi cutCall hwritten hshrink hwritten.2.1 hcut hshrank
  have hgrow : growCall.Moderate cutDisk :=
    moderate_of_request (i := 2) (s := 2) nofun rfl (by decide) (by decide)
  have hgrew : growCall.edits cutDisk 2 = some [.resized 2] := by decide
  exact hrun.edit hdisk hi growCall hcut hgrow hcut.2.1 hgrown hgrew

theorem unwritten_zero_iff_grown :
    ∃ s : Traced, ∃ history, s.edits 2 = some history ∧
      ((∀ k < oiSize s.disk (inodeAt 2), content s.disk 2 k = lastWritten 0 history k) ↔
        ∀ k < arraySize history, ¬ Stale blockStart 0 history k) := by
  obtain ⟨s, hrun, -, hi⟩ := grown_run
  exact ⟨s, _, hi, unwritten_zero_iff emptyDisk_formatted hrun hi⟩

/-- The byte that was cut off is there again. -/
theorem grownDisk_shows_old :
    ¬ ∀ (g : Geometry) (first : Memory) (s : Traced) (i : Nat) (history : List (Edit UInt8)),
      Formatted g first → s.Run g first → s.edits i = some history →
      ∀ k < oiSize s.disk (inodeAt i), content s.disk i k = lastWritten 0 history k := by
  intro hall
  obtain ⟨s, hrun, hdisk, hi⟩ := grown_run
  have hzero := hall emptyGeometry emptyDisk s 2 _ emptyDisk_formatted hrun hi 1
  rw [hdisk] at hzero
  revert hzero
  decide

end Cs111Labs.Ospfs
