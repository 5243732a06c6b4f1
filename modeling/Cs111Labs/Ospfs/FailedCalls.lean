import Cs111Labs.Ospfs.EntryGrowth

/-!
# Calls that fail to create a name

What `ospfs_create`, `ospfs_symlink` and `ospfs_link` leave on the disk when they
return an error.
-/

namespace Cs111Labs.Ospfs

open Foundation Memory

variable {g : Geometry} {m m' : Memory} {own : Nat → Prop} {d ino : Nat} {name : Name}

/-- A call that creates a name in a directory. -/
inductive NameCall where
  | create (name : Name) (mode : Nat) (newInode : Bool)
  | symlink (name symname : Name) (newInode : Bool)
  | link (src : Nat) (name : Name)

namespace NameCall

def run (m : Memory) (dir : Nat) : NameCall → Option Errno × Memory
  | create name mode newInode => ospfsCreate m dir name mode newInode
  | symlink name symname newInode => ospfsSymlink m dir name symname newInode
  | link src name => ospfsLink m src dir name

/-- The checks that are made before the directory is changed are passed. -/
def Passes (m : Memory) (d : Nat) : NameCall → Prop
  | create name _ _ => name.length ≤ 123 ∧ findDirentry m (inodeAt d) name = none ∧
      (findInode m).isSome
  | symlink name symname _ => (name.length ≤ 123 ∧ symname.length ≤ 51) ∧
      findDirentry m (inodeAt d) name = none ∧ (findInode m).isSome
  | link _ name => name.length ≤ 123 ∧ findDirentry m (inodeAt d) name = none

/-- The kernel has memory for a `struct inode`, if one is needed. -/
def HasInode : NameCall → Prop
  | create _ _ newInode | symlink _ _ newInode => newInode = true
  | link _ _ => True

/-- Neither the growth of the directory nor `new_inode` fails too late. -/
def FailsClean (g : Geometry) (m : Memory) (d : Nat) (call : NameCall) : Prop :=
  call.Passes m d →
    (NoRoom g m d → ¬ LeavesTraces g m d) ∧ (¬ NoRoom g m d → call.HasInode)

end NameCall

/-- If an error is returned, the disk is as before. -/
def ChangesNothing (m : Memory) (r : Option Errno × Memory) : Prop :=
  ∀ errno, r.1 = some errno → errno ≠ .oops → r.2 = m

theorem changesNothing_same (m : Memory) (r : Option Errno) : ChangesNothing m (r, m) :=
  fun _ _ _ => rfl

theorem changesNothing_none (m m' : Memory) : ChangesNothing m (none, m') := nofun

theorem changesNothing_some {errno : Errno} (hne : errno ≠ .oops) :
    ChangesNothing m (some errno, m') ↔ m' = m :=
  ⟨fun h => h errno rfl hne, fun heq _ _ _ => heq⟩

/-! ## The common part of `ospfs_create` and `ospfs_symlink` -/

/-- The new inode was free. -/
theorem Room.enter_ne {od : Nat} {m₁ : Memory} (initInode : Memory → Nat → Memory)
    (hr : Room g d od m m₁) (hfits : g.Fits m) (hfree : findInode m = some ino)
    (hlength : name.length ≤ 123)
    (hnlink : oiNlink (initInode m₁ (inodeAt ino)) (inodeAt ino) = 1) :
    enter m₁ ino od name initInode ≠ m := fun heq => by
  obtain ⟨hino, hzero⟩ := findInode_some hfits hfree
  have hfield : oiNlink (enter m₁ ino od name initInode) (inodeAt ino) =
      oiNlink (initInode m₁ (inodeAt ino)) (inodeAt ino) :=
    load32_congr fun t ht => hr.inode_eq initInode hino hlength (by
      simp only [inodeBytes, Set.mem_Ico]
      omega)
  rw [heq, hzero, hnlink] at hfield
  cases hfield

theorem makeEntry_changesNothing_iff (hw : WellFormed g m own d)
    (hd : oiFtype m (inodeAt d) = ftypeDir) (hdvd : 128 ∣ oiSize m (inodeAt d))
    (hlength : name.length ≤ 123) (initInode : Memory → Nat → Memory)
    (hinit : ∀ m i, ChangesOnly (inodeBytes i) m (initInode m (inodeAt i)))
    (hnlink : ∀ m i, oiNlink (initInode m (inodeAt i)) (inodeAt i) = 1)
    (hftype : ∀ m i, oiFtype (initInode m (inodeAt i)) (inodeAt i) = ftypeReg ∨
      oiFtype (initInode m (inodeAt i)) (inodeAt i) = ftypeSymlink) (newInode : Bool) :
    ChangesNothing m (makeEntry m (inodeAt d) name initInode newInode) ↔
      (findDirentry m (inodeAt d) name = none ∧ (findInode m).isSome →
        (NoRoom g m d → ¬ LeavesTraces g m d) ∧ (¬ NoRoom g m d → newInode = true)) := by
  rcases makeEntry_ends hw hd hdvd name initInode newInode with
    ⟨errno, hmake, hcheck⟩ | ⟨ino, hfree, hfind, ⟨hroom, m', hmake, htraces⟩ |
      ⟨hroom, od, m₁, hr, hmake⟩⟩
  · rw [hmake]
    refine iff_of_true (changesNothing_same m _) ?_
    rintro ⟨hfind, hfree⟩
    rcases hcheck with hsome | hnone
    · rw [hfind] at hsome
      cases hsome
    · rw [hnone] at hfree
      cases hfree
  · rw [hmake, changesNothing_some (by decide), htraces]
    constructor
    · exact fun hclean _ => ⟨fun _ => hclean, fun hnot => absurd hroom hnot⟩
    · exact fun h => (h ⟨hfind, by rw [hfree]; rfl⟩).1 hroom
  · rw [hmake, hr.instantiate_eq initInode hw.stored.fits (findInode_some hw.stored.fits hfree).1
      hlength (hinit m₁ ino) (hftype m₁ ino)]
    cases newInode with
    | true =>
        exact iff_of_true (changesNothing_none m _)
          fun _ => ⟨fun hnot => absurd hnot hroom, fun _ => rfl⟩
    | false =>
        refine iff_of_false (fun h => ?_) fun h => ?_
        · have hsame := (changesNothing_some (by decide)).1 h
          exact hr.enter_ne initInode hw.stored.fits hfree hlength (hnlink m₁ ino) hsame
        · exact absurd ((h ⟨hfind, by rw [hfree]; rfl⟩).2 hroom) (by decide)

/-! ## The three calls -/

theorem ospfsCreate_changesNothing_iff (hw : WellFormed g m own d)
    (hd : oiFtype m (inodeAt d) = ftypeDir) (hdvd : 128 ∣ oiSize m (inodeAt d))
    (name : Name) (mode : Nat) (newInode : Bool) :
    ChangesNothing m (ospfsCreate m d name mode newInode) ↔
      (NameCall.create name mode newInode).FailsClean g m d := by
  unfold ospfsCreate
  simp only [hw.stored.fits.ospfsInode hw.lt]
  split_ifs with hlength
  · exact iff_of_true (changesNothing_same m _) fun h => absurd h.1 (by omega)
  · rw [makeEntry_changesNothing_iff hw hd hdvd (by omega) (fun m oi => initReg m oi mode)
      (fun m i => initReg_changesOnly m i mode) (fun m i => (initReg_fields m _ mode).2.2.1)
      (fun m i => .inl (initReg_fields m _ mode).2.1)]
    exact ⟨fun h hpass => h hpass.2, fun h hpass => h ⟨by omega, hpass⟩⟩

theorem ospfsSymlink_changesNothing_iff (hw : WellFormed g m own d)
    (hd : oiFtype m (inodeAt d) = ftypeDir) (hdvd : 128 ∣ oiSize m (inodeAt d))
    (name symname : Name) (newInode : Bool) :
    ChangesNothing m (ospfsSymlink m d name symname newInode) ↔
      (NameCall.symlink name symname newInode).FailsClean g m d := by
  unfold ospfsSymlink
  simp only [hw.stored.fits.ospfsInode hw.lt]
  split_ifs with hlength
  · exact iff_of_true (changesNothing_same m _) fun h => absurd h.1 (by omega)
  · have hshort : symname.length ≤ 51 := by omega
    rw [makeEntry_changesNothing_iff hw hd hdvd (by omega)
      (fun m oi => initSymlink m oi symname) (fun m i => initSymlink_changesOnly m i hshort)
      (fun m i => (initSymlink_fields m _).2.2) (fun m i => .inr (initSymlink_fields m _).2.1)]
    exact ⟨fun h hpass => h hpass.2, fun h hpass => h ⟨by omega, hpass⟩⟩

/-- After the directory has grown, `ospfs_link` does not fail. -/
theorem ospfsLink_changesNothing_iff (hw : WellFormed g m own d)
    (hd : oiFtype m (inodeAt d) = ftypeDir) (hdvd : 128 ∣ oiSize m (inodeAt d))
    (src : Nat) (name : Name) :
    ChangesNothing m (ospfsLink m src d name) ↔ (NameCall.link src name).FailsClean g m d := by
  unfold ospfsLink
  simp only [hw.stored.fits.ospfsInode hw.lt]
  split_ifs with hlength hfind
  · exact iff_of_true (changesNothing_same m _) fun h => absurd h.1 (by omega)
  · refine iff_of_true (changesNothing_same m _) fun h => ?_
    rw [h.2] at hfind
    cases hfind
  · by_cases hroom : NoRoom g m d
    · obtain ⟨m', hblank, htraces⟩ := createBlankDirentry_fails hw hroom
      rw [hblank, changesNothing_some (by decide), htraces]
      constructor
      · exact fun hclean _ => ⟨fun _ => hclean, fun hnot => absurd hroom hnot⟩
      · exact fun h => (h ⟨by omega, Option.not_isSome_iff_eq_none.1 hfind⟩).1 hroom
    · obtain ⟨od, m₁, hblank, -⟩ := createBlankDirentry_succeeds hw hd hdvd hroom
      rw [hblank]
      refine iff_of_true ?_ fun _ => ⟨fun hnot => absurd hnot hroom, fun _ => trivial⟩
      dsimp only
      cases ospfsInode (setOdIno (setOdName m₁ od name) od src) src with
      | none =>
          intro errno herrno hne
          exact absurd (Option.some.inj herrno).symm hne
      | some oi => exact changesNothing_none m _

/--
A call that fails changes nothing, unless the directory needs the last free block
for pointers or the kernel has no memory left when the name is there.
-/
theorem failedCall_changesNothing_iff (hw : WellFormed g m own d)
    (hd : oiFtype m (inodeAt d) = ftypeDir) (hdvd : 128 ∣ oiSize m (inodeAt d))
    (call : NameCall) : ChangesNothing m (call.run m d) ↔ call.FailsClean g m d := by
  cases call with
  | create name mode newInode => exact ospfsCreate_changesNothing_iff hw hd hdvd name mode newInode
  | symlink name symname newInode =>
      exact ospfsSymlink_changesNothing_iff hw hd hdvd name symname newInode
  | link src name => exact ospfsLink_changesNothing_iff hw hd hdvd src name

theorem failedCall_changesNothing_iff_link :
    ChangesNothing emptyDisk ((NameCall.link 2 [97]).run emptyDisk 1) ↔
      (NameCall.link 2 [97]).FailsClean emptyGeometry emptyDisk 1 :=
  failedCall_changesNothing_iff emptyDisk_wellFormed (by decide) (by decide) (.link 2 [97])

/-- Without memory for a `struct inode` the file is there although the call fails. -/
theorem noMemory_changesDisk :
    (ospfsCreate emptyDisk 1 [97] 420 false).1 = some .enomem ∧
      (ospfsCreate emptyDisk 1 [97] 420 false).2 ≠ emptyDisk := by
  have hfits := emptyDisk_formatted.fits
  unfold ospfsCreate
  simp only [hfits.ospfsInode (by decide : 1 < 3)]
  rw [if_neg (by decide)]
  rcases makeEntry_ends emptyDisk_wellFormed (by decide) (by decide) [97]
    (fun m oi => initReg m oi 420) false with
    ⟨errno, -, hfind | hfree⟩ | ⟨j, hj, -, ⟨hno, -⟩ | ⟨-, od, m₁, hr, hmake⟩⟩
  · exact absurd hfind (by decide)
  · exact absurd hfree (by decide)
  · exact absurd hno emptyDisk_room
  · obtain ⟨-, hftype, hnlink, -⟩ := initReg_fields m₁ (inodeAt j) 420
    rw [hmake]
    refine ⟨hr.instantiate_eq (fun m oi => initReg m oi 420) hfits (findInode_some hfits hj).1
      (by decide) (initReg_changesOnly m₁ j 420) (.inl hftype) false, ?_⟩
    exact hr.enter_ne (fun m oi => initReg m oi 420) hfits hj (by decide) hnlink

end Cs111Labs.Ospfs
