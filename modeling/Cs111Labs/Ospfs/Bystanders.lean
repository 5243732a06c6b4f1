import Cs111Labs.Ospfs.Accounting
import Cs111Labs.Ospfs.IndirectFiles

/-!
# Files that a call leaves alone

Runs in which files are resized within their direct blocks and the last name of a
file with up to 266 blocks may go.
-/

namespace Cs111Labs.Ospfs

open Foundation Memory

variable {lossless : Prop} {g : Geometry} {m m' : Memory} {d i j ino src : Nat} {name : Name}
  {call : Call}

instance (g : Geometry) (m : Memory) (i : Nat) : Decidable (IsReg g m i) :=
  inferInstanceAs (Decidable (_ ∧ _ ∧ _))

/-- Directories and written files stay within their direct blocks. -/
def Call.Moderate (m : Memory) (call : Call) : Prop :=
  match call with
  | unlink _ _ _ => ∀ i s, call.request m = some (i, s) → oiSize m (inodeAt i) ≤ 266 * 1024
  | _ => call.Direct m

theorem Call.Moderate.serves (h : Sound False g m) (hp : call.Promised g m)
    (hmoderate : call.Moderate m) : call.Serves False g m := by
  cases call with
  | unlink dir name ino =>
      intro i s hrequest hown m' hstored hsame
      have hsize := hmoderate i s hrequest
      exact releasable_of_single hstored hown (by omega)
  | create | symlink | link | write | notifyChange =>
      exact Call.Direct.serves h hp hmoderate

/-! ## One call -/

theorem Made.sameFile {initInode : Memory → Nat → Memory} {newInode : Bool}
    {r : Option Errno × Memory} (hm : Made lossless g d name initInode newInode m r)
    (h : Sound lossless g m) (hd : IsDir g m d) (hzero : 0 ∉ name)
    (hinit : r.2 ≠ m → Inits lossless initInode) (hj : owner g m j) (hjd : j ≠ d) :
    SameFile m r.2 j := by
  by_cases hsame : r.2 = m
  · rw [hsame]
    exact .refl m j
  · rcases hm with ⟨heq, -⟩ | ⟨-, hresized, -⟩ | ⟨k, ino, -, hlength, hcreated⟩
    · exact absurd heq hsame
    · exact hresized.sameFile h.stored hd.1 hj hjd
    · obtain ⟨m₁, hstages⟩ := hcreated.stages h hd (hinit hsame) hlength hzero
      exact hstages.sameFile h hd hj hjd

theorem initSymlink_inits_of_ne {symname : Name} {newInode : Bool} (h : Sound lossless g m)
    (hd : IsDir g m d)
    (hserves : (Call.symlink d name symname newInode).Serves lossless g m)
    (hne : (ospfsSymlink m d name symname newInode).2 ≠ m) :
    Inits lossless fun m oi => initSymlink m oi symname := by
  refine initSymlink_inits lossless ?_
  by_contra hlength
  exact hne ((ospfsSymlink_made h hd hserves).2 (by omega))

theorem ospfsWrite_sameFile {append : Bool} {buffer : UserBuffer} {count fPos : Nat}
    (h : Sound lossless g m) (hi : IsReg g m i)
    (hserves : (Call.write i append buffer count fPos).Serves lossless g m)
    (hj : owner g m j) (hji : j ≠ i) :
    SameFile m (ospfsWrite m i append buffer count fPos).2.2 j := by
  obtain ⟨m₁, hresized, hcases⟩ := ospfsWrite_cases buffer h.stored hi.owner
    fun hlt => hserves i _ (if_pos hlt)
  have hsame := hresized.sameFile h.stored hi.1 hj hji
  rcases hcases with ⟨heq, -⟩ | ⟨-, R, -, hwrites, -⟩
  · rw [heq]
    exact hsame
  · exact hsame.trans (hwrites.sameFile hresized.stored hi.owner hj hji)

theorem ospfsNotifyChange_sameFile {attr : Iattr} {setattr : Option Errno}
    (h : Sound lossless g m) (hi : IsReg g m i)
    (hserves : (Call.notifyChange i attr setattr).Serves lossless g m)
    (hj : owner g m j) (hji : j ≠ i) :
    SameFile m (ospfsNotifyChange m i attr setattr).2 j := by
  have hsize : ∀ s, attr.iaSize = some s →
      s < 2 ^ 32 ∧ Resizable lossless g (owner g m) m i s := fun s hs =>
    hserves i s (by simp [Call.request, hs])
  obtain ⟨m₁, hresized, hcases⟩ :=
    ospfsNotifyChange_cases setattr h.stored hi.owner hi.ne_dir hsize
  have hsame := hresized.sameFile h.stored hi.1 hj hji
  rcases hcases with ⟨heq, -⟩ | ⟨-, -, heq | ⟨mode, heq⟩⟩
  · rw [heq]
    exact hsame
  · rw [heq]
    exact hsame
  · rw [heq]
    exact hsame.trans (sameFile_of_field hresized.stored hi.1 hj (setOiMode_changesOnly mode)
      (setOiMode_field (.inl rfl)))

/-- A file that is not a directory is changed by its own writes and resizes, and when it
loses its last name. -/
theorem Sound.sameFile (h : Sound lossless g m) (hp : call.Promised g m)
    (hserves : call.Serves lossless g m) (hj : IsReg g m j)
    (hother : j = call.file →
      ∃ d name, call = .unlink d name j ∧ oiNlink (call.exec m) (inodeAt j) ≠ 0) :
    SameFile m (call.exec m) j := by
  cases call with
  | create dir name mode newInode =>
      obtain ⟨hd, hzero⟩ := hp
      have hjd : j ≠ dir := fun heq => hj.not_isDir (heq ▸ hd)
      exact (ospfsCreate_made h hd hserves).sameFile h hd hzero
        (fun _ => initReg_inits lossless mode) hj.owner hjd
  | symlink dir name symname newInode =>
      obtain ⟨hd, hzero, -⟩ := hp
      have hjd : j ≠ dir := fun heq => hj.not_isDir (heq ▸ hd)
      exact (ospfsSymlink_made h hd hserves).1.sameFile h hd hzero
        (initSymlink_inits_of_ne h hd hserves) hj.owner hjd
  | link src dir name =>
      obtain ⟨hd, -, -, hsrc, -, -⟩ := hp
      have hjd : j ≠ dir := fun heq => hj.not_isDir (heq ▸ hd)
      rcases ospfsLink_cases name h hd hsrc (fun hlength habsent hfull =>
          (hserves dir _ (if_pos ⟨hlength, habsent, hfull⟩)).2) with
        ⟨heq, -⟩ | ⟨heq, -⟩ | ⟨m₁, heq, -, hresized, -⟩ |
          ⟨k, m₁, m₂, m₃, heq, hlength, hlinked⟩ <;> simp only [Call.exec, heq]
      · exact .refl m j
      · exact .refl m j
      · exact hresized.sameFile h.stored hd.1 hj.owner hjd
      · exact hlinked.sameFile h hd hlength hsrc hj.owner hjd
  | unlink dir name ino =>
      obtain ⟨hd, hino, hdir, hnamed⟩ := hp
      have hjd : j ≠ dir := fun heq => hj.not_isDir (heq ▸ hd)
      rcases ospfsUnlink_cases h hd hino hnamed with
        ⟨heq, -⟩ | ⟨k, m₂, m₃, m₄, heq, hunlinked⟩ <;> simp only [Call.exec, heq] at hother ⊢
      · exact .refl m j
      · have hlast := hunlinked.lastStep_of_serves h hd hino hdir hserves
        refine hunlinked.final_sameFile h hd hino hdir hlast hj.owner hjd ?_
        rintro rfl hone
        obtain ⟨_, _, -, hlink⟩ := hother rfl
        rw [hunlinked.final_nlink h hd hino hdir hlast, hone] at hlink
        exact hlink rfl
  | write ino append buffer count fPos =>
      refine ospfsWrite_sameFile h hp hserves hj.owner fun heq => ?_
      obtain ⟨_, _, hcall, -⟩ := hother heq
      cases hcall
  | notifyChange ino attr setattr =>
      refine ospfsNotifyChange_sameFile h hp hserves hj.owner fun heq => ?_
      obtain ⟨_, _, hcall, -⟩ := hother heq
      cases hcall

/-! ## New files -/

/-- An inode that comes into use has been filled. -/
theorem Made.fields_new {initInode : Memory → Nat → Memory} {newInode : Bool}
    {r : Option Errno × Memory} (hm : Made lossless g d name initInode newInode m r)
    (h : Sound lossless g m) (hd : IsDir g m d) (hzero : 0 ∉ name)
    (hinit : r.2 ≠ m → Inits lossless initInode) (hj : j < g.ninodes)
    (hfree : oiNlink m (inodeAt j) = 0) (hlive : oiNlink r.2 (inodeAt j) ≠ 0) :
    ∃ m₁, ∀ n ≤ 60, load32 r.2 (inodeAt j + n) =
      load32 (initInode m₁ (inodeAt j)) (inodeAt j + n) := by
  have hsame : r.2 ≠ m := fun heq => hlive (heq ▸ hfree)
  rcases hm with ⟨heq, -⟩ | ⟨-, hresized, -⟩ | ⟨k, ino, -, hlength, hcreated⟩
  · exact absurd heq hsame
  · exact absurd ((hresized.field h.stored hj (by decide) (by decide)).trans hfree) hlive
  · obtain ⟨m₁, hstages⟩ := hcreated.stages h hd (hinit hsame) hlength hzero
    by_cases hji : j = ino
    · subst hji
      exact ⟨m₁, fun n hn => hstages.newField hd hn⟩
    · exact absurd ((hstages.field h hd hj hji (by decide) (by decide)).trans hfree) hlive

theorem ospfsWrite_field {append : Bool} {buffer : UserBuffer} {count fPos n : Nat}
    (h : Sound lossless g m) (hi : IsReg g m i)
    (hserves : (Call.write i append buffer count fPos).Serves lossless g m)
    (hj : j < g.ninodes) (hn : 4 ≤ n) (hn' : n ≤ 12) :
    load32 (ospfsWrite m i append buffer count fPos).2.2 (inodeAt j + n) =
      load32 m (inodeAt j + n) := by
  obtain ⟨m₁, hresized, hcases⟩ := ospfsWrite_cases buffer h.stored hi.owner
    fun hlt => hserves i _ (if_pos hlt)
  have hfield := hresized.field h.stored hj hn hn'
  rcases hcases with ⟨heq, -⟩ | ⟨-, R, -, hwrites, -⟩
  · rw [heq]
    exact hfield
  · exact (hwrites.load hresized.stored hi.owner hj (by omega)).trans hfield

theorem ospfsNotifyChange_field {attr : Iattr} {setattr : Option Errno} {n : Nat}
    (h : Sound lossless g m) (hi : IsReg g m i)
    (hserves : (Call.notifyChange i attr setattr).Serves lossless g m)
    (hj : j < g.ninodes) (hn : n = 4 ∨ n = 8) :
    load32 (ospfsNotifyChange m i attr setattr).2 (inodeAt j + n) =
      load32 m (inodeAt j + n) := by
  have hsize : ∀ s, attr.iaSize = some s →
      s < 2 ^ 32 ∧ Resizable lossless g (owner g m) m i s := fun s hs =>
    hserves i s (by simp [Call.request, hs])
  obtain ⟨m₁, hresized, hcases⟩ :=
    ospfsNotifyChange_cases setattr h.stored hi.owner hi.ne_dir hsize
  have hfield := hresized.field h.stored hj (k := n) (by omega) (by omega)
  rcases hcases with ⟨heq, -⟩ | ⟨-, -, heq | ⟨mode, heq⟩⟩
  · rw [heq]
    exact hfield
  · rw [heq]
    exact hfield
  · rw [heq]
    exact (setOiMode_field hn).trans hfield

/-- A new regular file is empty. -/
theorem Sound.size_new (h : Sound lossless g m) (hp : call.Promised g m)
    (hserves : call.Serves lossless g m) (hfree : oiNlink m (inodeAt j) = 0)
    (hj : IsReg g (call.exec m) j) : oiSize (call.exec m) (inodeAt j) = 0 := by
  obtain ⟨hlt, hlive, hreg⟩ := hj
  cases call with
  | create dir name mode newInode =>
      obtain ⟨hd, hzero⟩ := hp
      obtain ⟨m₁, hfields⟩ := (ospfsCreate_made h hd hserves).fields_new h hd hzero
        (fun _ => initReg_inits lossless mode) hlt hfree hlive
      exact (hfields 0 (by decide)).trans (initReg_fields m₁ (inodeAt j) mode).1
  | symlink dir name symname newInode =>
      obtain ⟨hd, hzero, -⟩ := hp
      obtain ⟨m₁, hfields⟩ := (ospfsSymlink_made h hd hserves).1.fields_new h hd hzero
        (initSymlink_inits_of_ne h hd hserves) hlt hfree hlive
      have hsymlink := (hfields 4 (by decide)).trans (initSymlink_fields m₁ (inodeAt j)).2.1
      exact absurd (hsymlink.symm.trans hreg) (by decide)
  | link src dir name =>
      obtain ⟨hd, -, -, hsrc, hsrcLive, -⟩ := hp
      rcases ospfsLink_cases name h hd hsrc (fun hlength habsent hfull =>
          (hserves dir _ (if_pos ⟨hlength, habsent, hfull⟩)).2) with
        ⟨heq, -⟩ | ⟨heq, -⟩ | ⟨m₁, heq, -, hresized, -⟩ |
          ⟨k, m₁, m₂, m₃, heq, hlength, hlinked⟩ <;> simp only [Call.exec, heq] at hlive
      · exact absurd hfree hlive
      · exact absurd hfree hlive
      · exact absurd ((hresized.field h.stored hlt (by decide) (by decide)).trans hfree) hlive
      · have hjs : j ≠ src := fun heq => hsrcLive (heq ▸ hfree)
        exact absurd ((hlinked.nlink_of_ne h hd hlength hlt hjs).trans hfree) hlive
  | unlink dir name ino =>
      obtain ⟨hd, hino, hdir, hnamed⟩ := hp
      rcases ospfsUnlink_cases h hd hino hnamed with
        ⟨heq, -⟩ | ⟨k, m₂, m₃, m₄, heq, hunlinked⟩ <;> simp only [Call.exec, heq] at hlive
      · exact absurd hfree hlive
      · have hlast := hunlinked.lastStep_of_serves h hd hino hdir hserves
        have hji : j ≠ ino := by
          rintro rfl
          exact (hunlinked.nlink_pos h hino hdir).ne' hfree
        have hsame := hunlinked.final_sameInode h hd hino hdir hlast hlt hji
        exact absurd ((hsame.load (n := 8) (by decide)).trans hfree) hlive
  | write ino append buffer count fPos =>
      have hsame := ospfsWrite_field (n := 8) h hp hserves hlt (by decide) (by decide)
      exact absurd (hsame.trans hfree) hlive
  | notifyChange ino attr setattr =>
      have hsame := ospfsNotifyChange_field (n := 8) h hp hserves hlt (.inr rfl)
      exact absurd (hsame.trans hfree) hlive

end Cs111Labs.Ospfs
