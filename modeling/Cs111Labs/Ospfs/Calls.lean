import Cs111Labs.Ospfs.FileWrites
import Cs111Labs.Ospfs.Unlinks

/-!
# The calls of the kernel

The kernel calls OSPFS for entries of live directories and for files that it
has looked up.
-/

namespace Cs111Labs.Ospfs

open Foundation Memory

variable {lossless : Prop} {g : Geometry} {m m' : Memory} {d i j k ino src : Nat}
  {name symname : Name}

inductive Call where
  | create (dir : Nat) (name : Name) (mode : Nat) (newInode : Bool)
  | symlink (dir : Nat) (name symname : Name) (newInode : Bool)
  | link (src dir : Nat) (name : Name)
  | unlink (dir : Nat) (name : Name) (ino : Nat)
  | write (ino : Nat) (append : Bool) (buffer : UserBuffer) (count fPos : Nat)
  | notifyChange (ino : Nat) (attr : Iattr) (setattr : Option Errno)

namespace Call

/-- The disk after a call, whatever the call returns. -/
def exec (m : Memory) : Call → Memory
  | create dir name mode newInode => (ospfsCreate m dir name mode newInode).2
  | symlink dir name symname newInode => (ospfsSymlink m dir name symname newInode).2
  | link src dir name => (ospfsLink m src dir name).2
  | unlink dir name ino => (ospfsUnlink m dir name ino).2
  | write ino append buffer count fPos => (ospfsWrite m ino append buffer count fPos).2.2
  | notifyChange ino attr setattr => (ospfsNotifyChange m ino attr setattr).2

/-- The file that the call may resize. -/
def file : Call → Nat
  | create dir _ _ _ | symlink dir _ _ _ | link _ dir _ => dir
  | unlink _ _ ino | write ino _ _ _ _ | notifyChange ino _ _ => ino

end Call

def IsReg (g : Geometry) (m : Memory) (i : Nat) : Prop :=
  i < g.ninodes ∧ oiNlink m (inodeAt i) ≠ 0 ∧ oiFtype m (inodeAt i) = ftypeReg

theorem IsReg.owner (h : IsReg g m i) : owner g m i := ⟨h.1, h.2.1, by rw [h.2.2]; decide⟩

theorem IsReg.ne_dir (h : IsReg g m i) : oiFtype m (inodeAt i) ≠ ftypeDir := by
  rw [h.2.2]
  decide

theorem IsReg.not_isDir (h : IsReg g m i) : ¬ IsDir g m i := fun hd => h.ne_dir hd.2.2

/-- No place of the directory is blank. -/
def IsFull (m : Memory) (dirOi : Nat) : Prop :=
  findOffset m dirOi (fun od => odIno m od = 0) = none

instance (m : Memory) (dirOi : Nat) : Decidable (IsFull m dirOi) :=
  inferInstanceAs (Decidable (_ = _))

namespace Call

/--
What the kernel makes sure of.  A name has no zero byte, only files that are
not directories are linked or unlinked, and the dentry of a name to unlink holds
the inode that the name stands for.
-/
def Promised (g : Geometry) (m : Memory) : Call → Prop
  | create dir name _ _ => IsDir g m dir ∧ 0 ∉ name
  | symlink dir name symname _ => IsDir g m dir ∧ 0 ∉ name ∧ 0 ∉ symname
  | link src dir name => IsDir g m dir ∧ 0 ∉ name ∧ 0 < src ∧ src < g.ninodes ∧
      oiNlink m (inodeAt src) ≠ 0 ∧ oiFtype m (inodeAt src) ≠ ftypeDir
  | unlink dir name ino => IsDir g m dir ∧ ino < g.ninodes ∧
      oiFtype m (inodeAt ino) ≠ ftypeDir ∧
      ∀ od, findDirentry m (inodeAt dir) name = some od → odIno m od = ino
  | write ino _ _ _ _ => IsReg g m ino
  | notifyChange ino _ _ => IsReg g m ino

/-- The file that a call resizes and the requested size. -/
def request (m : Memory) : Call → Option (Nat × Nat)
  | create dir name _ _ =>
      if name.length ≤ 123 ∧ findDirentry m (inodeAt dir) name = none ∧
          (findInode m).isSome ∧ IsFull m (inodeAt dir) then
        some (dir, oiSize m (inodeAt dir) + 128)
      else none
  | symlink dir name symname _ =>
      if (name.length ≤ 123 ∧ symname.length ≤ 51) ∧
          findDirentry m (inodeAt dir) name = none ∧ (findInode m).isSome ∧
          IsFull m (inodeAt dir) then
        some (dir, oiSize m (inodeAt dir) + 128)
      else none
  | link _ dir name =>
      if name.length ≤ 123 ∧ findDirentry m (inodeAt dir) name = none ∧
          IsFull m (inodeAt dir) then
        some (dir, oiSize m (inodeAt dir) + 128)
      else none
  | unlink dir name ino =>
      if (findDirentry m (inodeAt dir) name).isSome ∧ oiNlink m (inodeAt ino) = 1 then
        some (ino, 0)
      else none
  | write ino append _ count fPos =>
      if count + writePos m ino append fPos > oiSize m (inodeAt ino) then
        some (ino, count + writePos m ino append fPos)
      else none
  | notifyChange ino attr _ => attr.iaSize.map (ino, ·)

/-- The file is resized as requested or for lack of space not at all. -/
def Serves (lossless : Prop) (g : Geometry) (m : Memory) (call : Call) : Prop :=
  match call with
  | unlink _ _ _ => ∀ i s, call.request m = some (i, s) → owner g m i →
      ∀ m', Stored lossless g m' (owner g m) →
        oiSize m' (inodeAt i) = oiSize m (inodeAt i) →
        Releasable lossless g (owner g m) m' i
  | _ => ∀ i s, call.request m = some (i, s) →
      s < 2 ^ 32 ∧ Resizable lossless g (owner g m) m i s

end Call

/-! ## Calls on directories -/

/-- The entry is made in a free place, or nothing happens. -/
def Made (lossless : Prop) (g : Geometry) (d : Nat) (name : Name)
    (initInode : Memory → Nat → Memory) (newInode : Bool) (m : Memory)
    (r : Option Errno × Memory) : Prop :=
  r.2 = m ∧ (r.1 = some .enametoolong ∨
      r.1 = some .eexist ∧ (findDirentry m (inodeAt d) name).isSome ∨
      r.1 = some .enospc ∧ findInode m = none) ∨
    (r.1 = some .enospc ∧ Resized lossless g (owner g m) d m r.2 ∧
      oiSize r.2 (inodeAt d) = oiSize m (inodeAt d)) ∨
    ∃ k ino, r.1 = instantiate r.2 ino newInode ∧ name.length ≤ 123 ∧
      Created lossless g d k ino name initInode m r.2

theorem made_of_makeEntry {initInode : Memory → Nat → Memory} {newInode : Bool}
    (h : Sound lossless g m) (hd : IsDir g m d) (hlength : name.length ≤ 123)
    (hroom : findDirentry m (inodeAt d) name = none → (findInode m).isSome →
      findOffset m (inodeAt d) (fun od => odIno m od = 0) = none →
      Resizable lossless g (owner g m) m d (oiSize m (inodeAt d) + 128)) :
    Made lossless g d name initInode newInode m
      (makeEntry m (inodeAt d) name initInode newInode) := by
  rcases makeEntry_cases initInode newInode h hd hroom with
    ⟨heq, hfound⟩ | ⟨heq, hfull⟩ | ⟨m₁, heq, hresized, hsize⟩ | ⟨k, ino, m₁, heq, hcreated⟩ <;>
    rw [heq]
  · exact .inl ⟨rfl, .inr (.inl ⟨rfl, hfound⟩)⟩
  · exact .inl ⟨rfl, .inr (.inr ⟨rfl, hfull⟩)⟩
  · exact .inr (.inl ⟨rfl, hresized, hsize⟩)
  · exact .inr (.inr ⟨k, ino, rfl, hlength, hcreated⟩)

theorem ospfsCreate_made {mode : Nat} {newInode : Bool} (h : Sound lossless g m)
    (hd : IsDir g m d) (hserves : (Call.create d name mode newInode).Serves lossless g m) :
    Made lossless g d name (fun m oi => initReg m oi mode) newInode m
      (ospfsCreate m d name mode newInode) := by
  unfold ospfsCreate
  rw [h.stored.fits.ospfsInode hd.1]
  by_cases hlength : name.length > 123
  · simp only [if_pos hlength]
    exact .inl ⟨rfl, .inl rfl⟩
  · simp only [if_neg hlength]
    have hshort : name.length ≤ 123 := by omega
    exact made_of_makeEntry h hd hshort fun habsent hfree hfull =>
      (hserves d _ (if_pos ⟨hshort, habsent, hfree, hfull⟩)).2

theorem ospfsSymlink_made {newInode : Bool} (h : Sound lossless g m) (hd : IsDir g m d)
    (hserves : (Call.symlink d name symname newInode).Serves lossless g m) :
    Made lossless g d name (fun m oi => initSymlink m oi symname) newInode m
        (ospfsSymlink m d name symname newInode) ∧
      (51 < symname.length → (ospfsSymlink m d name symname newInode).2 = m) := by
  unfold ospfsSymlink
  rw [h.stored.fits.ospfsInode hd.1]
  dsimp only
  by_cases hlength : name.length > 123 ∨ symname.length > 51
  · rw [if_pos hlength]
    exact ⟨.inl ⟨rfl, .inl rfl⟩, fun _ => rfl⟩
  · rw [if_neg hlength]
    have hshort : name.length ≤ 123 ∧ symname.length ≤ 51 := by omega
    exact ⟨made_of_makeEntry h hd hshort.1 fun habsent hfree hfull =>
      (hserves d _ (if_pos ⟨hshort, habsent, hfree, hfull⟩)).2, fun hlong => by omega⟩

theorem Made.sound {initInode : Memory → Nat → Memory} {newInode : Bool}
    {r : Option Errno × Memory} (hm : Made lossless g d name initInode newInode m r)
    (h : Sound lossless g m) (hd : IsDir g m d) (hzero : 0 ∉ name)
    (hinit : r.2 ≠ m → Inits lossless initInode) : Sound lossless g r.2 := by
  by_cases hsame : r.2 = m
  · rwa [hsame]
  · rcases hm with ⟨heq, -⟩ | ⟨-, hresized, hsize⟩ | ⟨k, ino, -, hlength, hcreated⟩
    · exact absurd heq hsame
    · exact h.resized hd.1 hresized fun _ => hsize
    · obtain ⟨m₁, hstages⟩ := hcreated.stages h hd (hinit hsame) hlength hzero
      exact hstages.sound h hd (hinit hsame)

theorem Unlinked.lastStep_of_serves {k : Nat} {m₂ m₃ : Memory}
    (hu : Unlinked lossless g d k ino name m m₂ m₃ m') (h : Sound lossless g m)
    (hd : IsDir g m d) (hino : ino < g.ninodes) (hdir : oiFtype m (inodeAt ino) ≠ ftypeDir)
    (hserves : (Call.unlink d name ino).Serves lossless g m) :
    LastStep lossless g (owner g m) ino m₃ m' := by
  refine hu.lastStep h hd hino hdir fun hown hone => ?_
  have hne : ino ≠ d := fun heq => hdir (heq ▸ hd.2.2)
  exact hserves ino 0 (if_pos ⟨hu.found, hone⟩) hown m₃ (hu.stored₃ h hd hino hdir)
    (hu.sameFile₃ h hd hino hdir hown hne).size

/-! ## The invariant -/

/-- Every call keeps the invariant. -/
theorem Sound.exec {call : Call} (h : Sound lossless g m) (hp : call.Promised g m)
    (hserves : call.Serves lossless g m) : Sound lossless g (call.exec m) := by
  cases call with
  | create dir name mode newInode =>
      obtain ⟨hd, hzero⟩ := hp
      exact (ospfsCreate_made h hd hserves).sound h hd hzero fun _ => initReg_inits lossless mode
  | symlink dir name symname newInode =>
      obtain ⟨hd, hzero, -⟩ := hp
      obtain ⟨hmade, hlong⟩ := ospfsSymlink_made h hd hserves
      refine hmade.sound h hd hzero fun hne => initSymlink_inits lossless ?_
      by_contra hlength
      exact hne (hlong (by omega))
  | link src dir name =>
      obtain ⟨hd, hzero, hpos, hsrc, hlive, hdir⟩ := hp
      rcases ospfsLink_cases name h hd hsrc (fun hlength habsent hfull =>
          (hserves dir _ (if_pos ⟨hlength, habsent, hfull⟩)).2) with
        ⟨heq, -⟩ | ⟨heq, -⟩ | ⟨m₁, heq, -, hresized, hsize⟩ |
          ⟨k, m₁, m₂, m₃, heq, hlength, hlinked⟩ <;> simp only [Call.exec, heq]
      · exact h
      · exact h
      · exact h.resized hd.1 hresized fun _ => hsize
      · exact hlinked.sound h hd hlength hzero hpos hsrc hdir hlive
  | unlink dir name ino =>
      obtain ⟨hd, hino, hdir, hnamed⟩ := hp
      rcases ospfsUnlink_cases h hd hino hnamed with
        ⟨heq, -⟩ | ⟨k, m₂, m₃, m₄, heq, hunlinked⟩ <;> simp only [Call.exec, heq]
      · exact h
      · exact hunlinked.final_sound h hd hino hdir
          (hunlinked.lastStep_of_serves h hd hino hdir hserves)
  | write ino append buffer count fPos =>
      exact ospfsWrite_sound h hp.owner hp.not_isDir fun hlt => hserves ino _ (if_pos hlt)
  | notifyChange ino attr setattr =>
      refine ospfsNotifyChange_sound h hp.owner hp.ne_dir fun s hs => hserves ino s ?_
      simp [Call.request, hs]

end Cs111Labs.Ospfs
