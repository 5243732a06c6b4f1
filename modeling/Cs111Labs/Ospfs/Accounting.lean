import Cs111Labs.Foundation.Run
import Cs111Labs.Ospfs.Calls

/-!
# Storage accounting

As long as files are resized within their direct blocks, every run of calls
keeps each data block either free or in exactly one place of one file.
-/

namespace Cs111Labs.Ospfs

open Foundation Memory

variable {lossless : Prop} {g : Geometry} {m m' : Memory} {i : Nat}

/-- Blocks in use, free blocks and the pointers past the end of files. -/
structure Accounted (g : Geometry) (m : Memory) : Prop where
  data : ∀ i (s : Slot), owner g m i → s.InUse (blockCount m i) → g.IsData (s.target m (inodeAt i))
  once : ∀ i j (s t : Slot), owner g m i → s.InUse (blockCount m i) → owner g m j →
    t.InUse (blockCount m j) → s.target m (inodeAt i) = t.target m (inodeAt j) →
    i = j ∧ s = t
  past : ∀ i, owner g m i → PastZero m i
  free : ∀ b < g.nblocks, bitvectorTest m freemap b = true ↔
    g.IsData b ∧ ∀ i (s : Slot), owner g m i → s.InUse (blockCount m i) →
      s.target m (inodeAt i) ≠ b

theorem Accounted.owns_iff (h : Accounted g m) {s : Slot} {b : Nat} :
    Owns m (owner g m) (i, s) b ↔
      owner g m i ∧ s.InUse (blockCount m i) ∧ s.target m (inodeAt i) = b := by
  refine ⟨fun ho => ⟨ho.owner, ho.inUse, ho.target⟩, fun ⟨hown, huse, htarget⟩ =>
    ⟨hown, huse, htarget, .inl ?_⟩⟩
  have hthree := (h.data i s hown huse).three_lt
  omega

theorem Accounted.balanced (h : Accounted g m) : Balanced g m (owner g m) where
  held_mem := by
    rintro ⟨i, s⟩ b hb
    obtain ⟨hown, huse, rfl⟩ := h.owns_iff.1 hb
    exact h.data i s hown huse
  free_mem b hb := ((h.free b hb.1).1 hb.2).1
  held_not_free := by
    rintro ⟨i, s⟩ b hb hfree
    obtain ⟨hown, huse, htarget⟩ := h.owns_iff.1 hb
    exact ((h.free b hfree.1).1 hfree.2).2 i s hown huse htarget
  once := by
    rintro ⟨i, s⟩ ⟨j, t⟩ b hb hb'
    obtain ⟨hown, huse, htarget⟩ := h.owns_iff.1 hb
    obtain ⟨hown', huse', htarget'⟩ := h.owns_iff.1 hb'
    obtain ⟨rfl, rfl⟩ := h.once i j s t hown huse hown' huse' (htarget.trans htarget'.symm)
    rfl
  func _ _ _ hb hc := hb.target.symm.trans hc.target
  complete b hb := by
    by_cases hfree : bitvectorTest m freemap b = true
    · exact .inl ⟨hb.2, hfree⟩
    · right
      by_contra hnone
      refine hfree ((h.free b hb.2).2 ⟨hb, fun i s hown huse htarget => hnone ⟨(i, s), ?_⟩⟩)
      exact h.owns_iff.2 ⟨hown, huse, htarget⟩

theorem Accounted.filled (h : Accounted g m) (hown : owner g m i) : Filled m i :=
  fun s huse => .inl (by
    have hthree := (h.data i s hown huse).three_lt
    omega)

/-- If no block may be lost, the storage is accounted for. -/
theorem Stored.accounted (h : Stored lossless g m (owner g m)) (hl : lossless) :
    Accounted g m := by
  have howns : ∀ i (s : Slot), owner g m i → s.InUse (blockCount m i) →
      Owns m (owner g m) (i, s) (s.target m (inodeAt i)) := fun i s hown huse =>
    ⟨hown, huse, rfl, (h.file i hown).filled (.inl hl) s huse⟩
  refine ⟨fun i s hown huse => h.safe.held_mem _ _ (howns i s hown huse), ?_,
    fun i hown => (h.file i hown).pastZero hl, ?_⟩
  · intro i j s t hown huse hown' huse' heq
    have hplace := h.safe.once _ _ _ (howns i s hown huse) (heq ▸ howns j t hown' huse')
    exact Prod.mk.inj hplace
  · intro b hb
    constructor
    · intro hbit
      refine ⟨h.safe.free_mem b ⟨hb, hbit⟩, fun i s hown huse heq => ?_⟩
      exact h.safe.held_not_free _ _ (heq ▸ howns i s hown huse) ⟨hb, hbit⟩
    · rintro ⟨hdata, hnone⟩
      rcases h.complete hl b hdata with hfree | ⟨⟨i, s⟩, ho⟩
      · exact hfree.2
      · exact absurd ho.target (hnone i s ho.owner ho.inUse)

/-! ## Formatted disks -/

/-- A disk as `ospfsformat` lays it out. -/
structure Formatted (g : Geometry) (m : Memory) : Prop where
  fits : g.Fits m
  boot : ∀ a < 1024, m a = 0
  accounted : Accounted g m
  size_le : ∀ i, owner g m i → oiSize m (inodeAt i) ≤ 1024 * Slot.maxfileblks
  indirect : ∀ i, owner g m i → blockCount m i ≤ 10 → oiIndirect m (inodeAt i) = 0
  dirSize : ∀ d, IsDir g m d → 1024 ∣ oiSize m (inodeAt d)
  reserved : oiNlink m (inodeAt 0) = 1 ∧ oiFtype m (inodeAt 0) = ftypeReg
  ftype_le : ∀ i < g.ninodes, oiFtype m (inodeAt i) ≤ ftypeSymlink
  named : ∀ p ino name, slot g m p = some (ino, name) → ino < g.ninodes
  distinct : ∀ d k k' ino ino' name, slot g m (d, k) = some (ino, name) →
    slot g m (d, k') = some (ino', name) → ino ≠ 0 → ino' ≠ 0 → k = k'
  links : ∀ i, 0 < i → i < g.ninodes → ¬ IsDir g m i →
    oiNlink m (inodeAt i) = (entries g m i).ncard

theorem Formatted.sound (lossless : Prop) (h : Formatted g m) : Sound lossless g m where
  stored := by
    have hbalanced := h.accounted.balanced
    refine ⟨h.fits, hbalanced.toSafe, fun _ => hbalanced.complete, h.boot,
      fun i hi => hi.1, fun i hi => ?_⟩
    have hfilled := h.accounted.filled hi
    exact ⟨hi.2.2, h.size_le i hi, fun k hk hlt => (hfilled (.direct k) ⟨hk, hlt⟩).resolve_right id,
      h.indirect i hi, fun _ => hfilled, fun _ => h.accounted.past i hi⟩
  entrySize d hd := (by decide : 128 ∣ 1024).trans (h.dirSize d hd)
  reserved := by
    rw [h.reserved.1, h.reserved.2]
    decide
  named := h.named
  links := h.links

/-! ## An empty disk -/

def emptyGeometry : Geometry where
  nblocks := 6
  ninodes := 3
  nblocks_le := by decide
  ninodes_le := by decide

/-- What `ospfsformat` makes of an empty directory. -/
def emptyDisk : Memory := fun a =>
  match a with
  | 1024 => 0xAE
  | 1025 => 0x01
  | 1026 => 0x31
  | 1027 => 0x01
  | 1028 => 6
  | 1032 => 3
  | 1036 => 3
  | 2048 => 48
  | 3080 => 1
  | 3140 => 1
  | 3144 => 1
  | 3148 => 0xFF
  | 3149 => 0x01
  | _ => 0

theorem emptyDisk_size : ∀ i < 3, oiSize emptyDisk (inodeAt i) = 0 := by decide

theorem emptyDisk_bits : ∀ b < 6, bitvectorTest emptyDisk freemap b = decide (4 ≤ b) := by
  decide

theorem emptyDisk_isDir (d : Nat) : IsDir emptyGeometry emptyDisk d ↔ d = 1 := by
  constructor
  · rintro ⟨hd, hlink, hftype⟩
    change d < 3 at hd
    interval_cases d
    · exact absurd hftype (by decide)
    · rfl
    · exact absurd hlink (by decide)
  · rintro rfl
    decide

theorem emptyDisk_slot (p : Nat × Nat) : slot emptyGeometry emptyDisk p = none := by
  refine slot_eq_none ?_
  rintro ⟨hd, hk⟩
  rw [emptyDisk_isDir] at hd
  rw [hd] at hk
  exact absurd hk (Nat.not_lt_zero _)

theorem emptyDisk_not_inUse {i : Nat} {s : Slot} (hi : i < 3) :
    ¬ s.InUse (blockCount emptyDisk i) := by
  rw [blockCount_of_size (emptyDisk_size i hi)]
  exact Slot.not_inUse_zero

theorem emptyDisk_formatted : Formatted emptyGeometry emptyDisk where
  fits := ⟨by decide, by decide, by decide⟩
  boot a ha := by
    unfold emptyDisk
    split <;> first | omega | rfl
  accounted := by
    refine ⟨fun i s hi huse => absurd huse (emptyDisk_not_inUse hi.1),
      fun i j s t hi huse => absurd huse (emptyDisk_not_inUse hi.1), ?_, ?_⟩
    · intro i hi k hk _
      have hzero : ∀ i < 3, ∀ k < 10, oiDirect emptyDisk (inodeAt i) k = 0 := by decide
      exact hzero i hi.1 k hk
    · intro b hb
      rw [emptyDisk_bits b hb, decide_eq_true_eq]
      refine ⟨fun hle => ⟨⟨hle, hb⟩, fun i s hi huse => ?_⟩, fun h => h.1.1⟩
      exact absurd huse (emptyDisk_not_inUse hi.1)
  size_le i hi := by
    rw [emptyDisk_size i hi.1]
    exact Nat.zero_le _
  indirect i hi _ := by
    have hzero : ∀ i < 3, oiIndirect emptyDisk (inodeAt i) = 0 := by decide
    exact hzero i hi.1
  dirSize d hd := by
    rw [emptyDisk_size d hd.1]
    exact dvd_zero 1024
  reserved := by decide
  ftype_le := by decide
  named p ino name hp := by simp [emptyDisk_slot] at hp
  distinct d k k' ino ino' name hp := by simp [emptyDisk_slot] at hp
  links i hpos hi hdir := by
    have hempty : entries emptyGeometry emptyDisk i = ∅ := by
      ext p
      simp [mem_entries, emptyDisk_slot]
    rw [hempty, Set.ncard_empty]
    change i < 3 at hi
    interval_cases i
    · exact absurd ((emptyDisk_isDir 1).2 rfl) hdir
    · decide

/-! ## Runs -/

def Call.step (call : Call) (m : Memory) : Option Memory := some (call.exec m)

/-- The resized file needs direct blocks only, before and for the requested size. -/
def Call.Direct (m : Memory) (call : Call) : Prop :=
  ∀ i s, call.request m = some (i, s) →
    oiSize m (inodeAt i) ≤ 10 * 1024 ∧ s ≤ 10 * 1024

theorem Call.file_of_request {call : Call} {s : Nat}
    (hrequest : call.request m = some (i, s)) : i = call.file := by
  cases call with
  | create | symlink | link | unlink | write =>
      simp only [Call.request, Option.ite_none_right_eq_some, Option.some.injEq,
        Prod.mk.injEq] at hrequest
      exact hrequest.2.1.symm
  | notifyChange ino attr setattr =>
      simp only [Call.request, Option.map_eq_some_iff, Prod.mk.injEq] at hrequest
      obtain ⟨_, _, heq, _⟩ := hrequest
      exact heq.symm

theorem Call.Promised.owner_file {call : Call} (hp : call.Promised g m)
    (hnot : ∀ d name ino, call ≠ .unlink d name ino) : owner g m call.file := by
  cases call with
  | create | symlink | link => exact hp.1.owner
  | unlink d name ino => exact absurd rfl (hnot d name ino)
  | write | notifyChange => exact IsReg.owner hp

theorem Call.Direct.serves {call : Call} (h : Sound lossless g m) (hp : call.Promised g m)
    (hdirect : call.Direct m) : call.Serves lossless g m := by
  have hgeneral : (∀ d name ino, call ≠ .unlink d name ino) →
      ∀ i s, call.request m = some (i, s) →
        s < 2 ^ 32 ∧ Resizable lossless g (owner g m) m i s := by
    intro hnot i s hrequest
    obtain ⟨hsize, hnew⟩ := hdirect i s hrequest
    have hown := hp.owner_file hnot
    rw [← Call.file_of_request hrequest] at hown
    exact ⟨by omega, resizable_of_direct h.stored hown (by omega) (by omega)⟩
  cases call with
  | unlink dir name ino =>
      intro i s hrequest hown m' hstored hsame
      obtain ⟨hsize, -⟩ := hdirect i s hrequest
      exact releasable_of_direct hstored hown (by omega)
  | create | symlink | link | write | notifyChange =>
      exact hgeneral (fun _ _ _ => nofun)

theorem sound_of_reaches {first : Memory} (hfirst : Sound lossless g first)
    (hrun : Reaches Call.step (fun call m => call.Promised g m ∧ call.Direct m) first m) :
    Sound lossless g m := by
  refine hrun.invariant hfirst fun call m m' h hallowed hstep => ?_
  injection hstep with hstep
  subst hstep
  exact h.exec hallowed.1 (Call.Direct.serves h hallowed.1 hallowed.2)

/-- No run of calls loses a block or uses one twice. -/
theorem accounted_of_reaches {first : Memory} (hfirst : Formatted g first)
    (hrun : Reaches Call.step (fun call m => call.Promised g m ∧ call.Direct m) first m) :
    Accounted g m :=
  (sound_of_reaches (hfirst.sound True) hrun).stored.accounted trivial

theorem accounted_of_reaches_create :
    Accounted emptyGeometry ((Call.create 1 [97] 420 true).exec emptyDisk) := by
  refine accounted_of_reaches emptyDisk_formatted
    (.next .start (.create 1 [97] 420 true) ⟨⟨by decide, by decide⟩, ?_⟩ rfl)
  intro i s hrequest
  simp only [Call.request, Option.ite_none_right_eq_some, Option.some.injEq,
    Prod.mk.injEq] at hrequest
  obtain ⟨-, rfl, rfl⟩ := hrequest
  decide

end Cs111Labs.Ospfs
