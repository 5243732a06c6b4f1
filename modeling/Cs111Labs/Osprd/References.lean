import Cs111Labs.Foundation.Total
import Cs111Labs.Osprd.Device

/-!
# References to open files

The reference count of a file is the number of descriptors and blocked calls
that refer to it.  A blocked call therefore never refers to a closed file.
-/

namespace Cs111Labs.Osprd

open Foundation

variable {s s' : System} {pid : Pid} {filp : Handle} {file : File}

/-! ## Views of the state -/

/-- The local variables of a blocked call. -/
def Place.call : Place → Option (Handle × Bool × Word)
  | .outside => none
  | .waiting filp filpWritable ticketCur _ => some (filp, filpWritable, ticketCur)
  | .scheduled filp filpWritable ticketCur => some (filp, filpWritable, ticketCur)

def Place.uses (place : Place) (filp : Handle) : Nat :=
  if place.call.map (·.1) = some filp then 1 else 0

/-- The references of one process to a file. -/
def System.uses (s : System) (filp : Handle) (pid : Pid) : Nat :=
  (s.fds pid).count filp + (s.place pid).uses filp

def System.count (s : System) (filp : Handle) : Nat :=
  (s.files filp).elim 0 File.count

@[simp] theorem Place.call_outside : Place.outside.call = none := rfl

@[simp] theorem Place.call_wake (place : Place) : place.wake.call = place.call := by
  cases place <;> rfl

/-- Everything in a file but the lock flag. -/
def File.shape (file : File) : Bool × Bool × Nat :=
  (file.onDevice, file.writable, file.count)

def System.shape (s : System) (filp : Handle) : Option (Bool × Bool × Nat) :=
  (s.files filp).map File.shape

theorem count_eq_of_shape (h : s'.shape = s.shape) (filp : Handle) :
    s'.count filp = s.count filp := by
  have heq := congrFun h filp
  cases hold : s.files filp <;> cases hnew : s'.files filp <;>
    simp_all [System.shape, System.count, File.shape]

theorem file_of_shape (h : s'.shape = s.shape) (hfile : s'.files filp = some file) :
    ∃ old, s.files filp = some old ∧ old.shape = file.shape := by
  have heq := congrFun h filp
  simpa [System.shape, hfile] using heq.symm

/-! ## The invariant -/

structure References (s : System) : Prop where
  total : ∀ filp, Totals (s.uses filp) (s.count filp)
  positive : ∀ filp file, s.files filp = some file → 0 < file.count
  fresh : ∀ filp, s.nextHandle ≤ filp → s.files filp = none
  caller : ∀ pid filp filpWritable ticketCur,
    (s.place pid).call = some (filp, filpWritable, ticketCur) →
      filp ∈ s.fds pid ∧ ∃ file, s.files filp = some file ∧
        file.onDevice = true ∧ file.writable = filpWritable

/-! ## Fields of the small updates -/

section Fields

variable {place : Place} {entry : Entry} {found : Option File} {locked : Bool}

@[simp] theorem setPlace_d : (s.setPlace pid place).d = s.d := rfl
@[simp] theorem setPlace_files : (s.setPlace pid place).files = s.files := rfl
@[simp] theorem setPlace_fds : (s.setPlace pid place).fds = s.fds := rfl
@[simp] theorem setPlace_log : (s.setPlace pid place).log = s.log := rfl
@[simp] theorem setPlace_nextHandle :
    (s.setPlace pid place).nextHandle = s.nextHandle := rfl
@[simp] theorem setPlace_place :
    (s.setPlace pid place).place = Function.update s.place pid place := rfl

@[simp] theorem setFile_d : (s.setFile filp found).d = s.d := rfl
@[simp] theorem setFile_place : (s.setFile filp found).place = s.place := rfl
@[simp] theorem setFile_fds : (s.setFile filp found).fds = s.fds := rfl
@[simp] theorem setFile_log : (s.setFile filp found).log = s.log := rfl
@[simp] theorem setFile_nextHandle :
    (s.setFile filp found).nextHandle = s.nextHandle := rfl
@[simp] theorem setFile_files :
    (s.setFile filp found).files = Function.update s.files filp found := rfl

@[simp] theorem record_d : (s.record entry).d = s.d := rfl
@[simp] theorem record_files : (s.record entry).files = s.files := rfl
@[simp] theorem record_place : (s.record entry).place = s.place := rfl
@[simp] theorem record_fds : (s.record entry).fds = s.fds := rfl
@[simp] theorem record_log : (s.record entry).log = entry :: s.log := rfl
@[simp] theorem record_nextHandle :
    (s.record entry).nextHandle = s.nextHandle := rfl

@[simp] theorem setLocked_d : (s.setLocked filp locked).d = s.d := rfl
@[simp] theorem setLocked_place : (s.setLocked filp locked).place = s.place := rfl
@[simp] theorem setLocked_fds : (s.setLocked filp locked).fds = s.fds := rfl
@[simp] theorem setLocked_log : (s.setLocked filp locked).log = s.log := rfl
@[simp] theorem setLocked_nextHandle :
    (s.setLocked filp locked).nextHandle = s.nextHandle := rfl

@[simp] theorem wakeUpAll_d : (wakeUpAll s).d = s.d := rfl
@[simp] theorem wakeUpAll_files : (wakeUpAll s).files = s.files := rfl
@[simp] theorem wakeUpAll_fds : (wakeUpAll s).fds = s.fds := rfl
@[simp] theorem wakeUpAll_log : (wakeUpAll s).log = s.log := rfl
@[simp] theorem wakeUpAll_nextHandle :
    (wakeUpAll s).nextHandle = s.nextHandle := rfl
@[simp] theorem wakeUpAll_place :
    (wakeUpAll s).place pid = (s.place pid).wake := rfl

variable {file : File}

@[simp] theorem osprdCloseLast_files :
    (osprdCloseLast s filp file).files = Function.update s.files filp none := by
  unfold osprdCloseLast
  split <;> [rfl; split <;> rfl]

@[simp] theorem osprdCloseLast_fds : (osprdCloseLast s filp file).fds = s.fds := by
  unfold osprdCloseLast
  split <;> [rfl; split <;> rfl]

@[simp] theorem osprdCloseLast_nextHandle :
    (osprdCloseLast s filp file).nextHandle = s.nextHandle := by
  unfold osprdCloseLast
  split <;> [rfl; split <;> rfl]

@[simp] theorem osprdCloseLast_log :
    (osprdCloseLast s filp file).log = .closed filp :: s.log := by
  unfold osprdCloseLast
  split <;> [rfl; split <;> rfl]

@[simp] theorem osprdCloseLast_call :
    ((osprdCloseLast s filp file).place pid).call = (s.place pid).call := by
  unfold osprdCloseLast
  split
  · exact Place.call_wake _
  · split
    · exact Place.call_wake _
    · rfl

theorem fput_files (hfile : s.files filp = some file) :
    (fput s filp).files = Function.update s.files filp
      (if 1 < file.count then some { file with count := file.count - 1 }
        else none) := by
  simp only [fput, hfile]
  split
  · rfl
  · split
    · exact osprdCloseLast_files
    · rfl

@[simp] theorem fput_fds : (fput s filp).fds = s.fds := by
  unfold fput
  split <;> [rfl; (split <;> [rfl; (split <;> simp)])]

@[simp] theorem fput_nextHandle : (fput s filp).nextHandle = s.nextHandle := by
  unfold fput
  split <;> [rfl; (split <;> [rfl; (split <;> simp)])]

@[simp] theorem fput_call :
    ((fput s filp).place pid).call = (s.place pid).call := by
  unfold fput
  split <;> [rfl; (split <;> [rfl; (split <;> simp)])]

@[simp] theorem fput_uses (other : Handle) :
    ((fput s filp).place pid).uses other = (s.place pid).uses other := by
  simp [Place.uses]

end Fields

/-! ## References -/

theorem Place.uses_le_one (place : Place) (filp : Handle) :
    place.uses filp ≤ 1 := by
  unfold Place.uses
  split <;> decide

theorem Place.uses_of_call {place : Place} {filpWritable : Bool} {ticketCur : Word}
    (h : place.call = some (filp, filpWritable, ticketCur)) (other : Handle) :
    place.uses other = if filp = other then 1 else 0 := by
  simp [Place.uses, h]

@[simp] theorem Place.uses_outside (filp : Handle) :
    Place.outside.uses filp = 0 := rfl

namespace References

theorem count_pos (h : References s) (hfile : s.files filp = some file) :
    0 < s.count filp := by
  simpa [System.count, hfile] using h.positive filp file hfile

/-- A file has the descriptor and the call of a blocked caller as references. -/
theorem two_le_count (h : References s) {filpWritable : Bool} {ticketCur : Word}
    (hcall : (s.place pid).call = some (filp, filpWritable, ticketCur)) :
    2 ≤ s.count filp := by
  have hfd := (h.caller _ _ _ _ hcall).1
  have hfds : 0 < (s.fds pid).count filp := List.count_pos_iff.mpr hfd
  have huses : s.uses filp pid = (s.fds pid).count filp + 1 := by
    simp [System.uses, Place.uses_of_call hcall]
  have hle := (h.total filp).le pid
  omega

theorem total_change (h : References s) (filp : Handle) (pid : Pid)
    (huses : ∀ other q, q ≠ pid ∨ other ≠ filp →
      s'.uses other q = s.uses other q)
    (hother : ∀ other, other ≠ filp → s'.count other = s.count other)
    (hcount : s'.count filp + s.uses filp pid =
      s.count filp + s'.uses filp pid) (other : Handle) :
    Totals (s'.uses other) (s'.count other) := by
  by_cases heq : other = filp
  · subst heq
    exact (h.total other).update pid (fun q hq => huses other q (.inl hq)) hcount
  · rw [hother other heq]
    exact (h.total other).congr fun q => huses other q (.inr heq)

theorem congr (h : References s) (hshape : s'.shape = s.shape)
    (hfds : s'.fds = s.fds)
    (hcall : ∀ pid, (s'.place pid).call = (s.place pid).call)
    (hnext : s'.nextHandle = s.nextHandle) : References s' where
  total filp := by
    rw [count_eq_of_shape hshape]
    refine (h.total filp).congr fun pid => ?_
    simp only [System.uses, Place.uses, hfds, hcall]
  positive filp file hfile := by
    obtain ⟨old, hold, heq⟩ := file_of_shape hshape hfile
    have hcount : old.count = file.count := congrArg (·.2.2) heq
    exact hcount ▸ h.positive filp old hold
  fresh filp hfilp := by
    have hnone := h.fresh filp (hnext ▸ hfilp)
    have heq := congrFun hshape filp
    simpa [System.shape, hnone] using heq
  caller pid filp filpWritable ticketCur hplace := by
    rw [hcall] at hplace
    obtain ⟨hfd, file, hfile, hdevice, hwritable⟩ := h.caller _ _ _ _ hplace
    obtain ⟨new, hnew, heq⟩ := file_of_shape hshape.symm hfile
    refine ⟨hfds ▸ hfd, new, hnew, ?_, ?_⟩
    · exact (congrArg (·.1) heq).trans hdevice
    · exact (congrArg (·.2.1) heq).trans hwritable

/-- One reference more. -/
theorem take (h : References s) (hfile : s.files filp = some file) (pid : Pid)
    (huses : ∀ other q, q ≠ pid ∨ other ≠ filp →
      s'.uses other q = s.uses other q)
    (hmore : s'.uses filp pid = s.uses filp pid + 1)
    (hcalls : ∀ q other filpWritable t,
      (s'.place q).call = some (other, filpWritable, t) → other ∈ s'.fds q ∧
        ((s.place q).call = some (other, filpWritable, t) ∨
          other = filp ∧ file.onDevice = true ∧ file.writable = filpWritable))
    (hnext : s'.nextHandle = s.nextHandle)
    (hfiles : s'.files = (fget s filp).files) : References s' := by
  have hnew : s'.files filp = some { file with count := file.count + 1 } := by
    simp [hfiles, fget, hfile]
  have hother : ∀ other, other ≠ filp → s'.files other = s.files other := by
    intro other hne
    simp [hfiles, fget, hne]
  refine ⟨?_, ?_, ?_, ?_⟩
  · refine h.total_change filp pid huses ?_ ?_
    · intro other hne
      simp [System.count, hother other hne]
    · simp [System.count, hnew, hfile, hmore]
      omega
  · intro other found hfound
    by_cases hne : other = filp
    · subst hne
      have heq := Option.some.inj (hnew.symm.trans hfound)
      simp [← heq]
    · exact h.positive other found (hother other hne ▸ hfound)
  · intro other hlarge
    have hnone := h.fresh other (hnext ▸ hlarge)
    have hne : other ≠ filp := by
      rintro rfl
      simp [hfile] at hnone
    rw [hother other hne, hnone]
  · intro q other filpWritable t hcall
    obtain ⟨hmem, hold | ⟨rfl, hon, hmode⟩⟩ := hcalls _ _ _ _ hcall
    · obtain ⟨-, found, hfound, hon, hmode⟩ := h.caller _ _ _ _ hold
      refine ⟨hmem, ?_⟩
      by_cases hne : other = filp
      · subst hne
        obtain rfl : file = found := Option.some.inj (hfile.symm.trans hfound)
        exact ⟨_, hnew, hon, hmode⟩
      · exact ⟨found, (hother other hne).trans hfound, hon, hmode⟩
    · exact ⟨hmem, _, hnew, hon, hmode⟩

theorem openFile (h : References s) (hidle : s.place pid = .outside)
    (onDevice writable : Bool) :
    References { s with
      files := Function.update s.files s.nextHandle
        (some { onDevice := onDevice, writable := writable })
      nextHandle := s.nextHandle + 1
      fds := Function.update s.fds pid (s.fds pid ++ [s.nextHandle]) } where
  total := by
    refine h.total_change s.nextHandle pid ?_ ?_ ?_
    · intro other q hne
      by_cases hq : q = pid
      · subst hq
        have hother : s.nextHandle ≠ other := by
          rintro rfl
          simp at hne
        simp [System.uses, hother]
      · simp [System.uses, hq]
    · intro other hother
      simp [System.count, hother]
    · simp [System.uses, System.count, h.fresh s.nextHandle le_rfl]
      omega
  positive other found hfound := by
    by_cases hother : other = s.nextHandle
    · subst hother
      have heq : File.mk onDevice writable false 1 = found := by
        simpa using hfound
      simp [← heq]
    · exact h.positive other found (by simpa [hother] using hfound)
  fresh other hlarge := by
    have hother : other ≠ s.nextHandle := by
      rintro rfl
      simp at hlarge
    simpa [hother] using h.fresh other (Nat.le_of_succ_le hlarge)
  caller q other filpWritable t hcall := by
    have hq : q ≠ pid := by
      rintro rfl
      simp [hidle] at hcall
    obtain ⟨hmem, found, hfound, hon, hmode⟩ := h.caller q other _ _ hcall
    have hother : other ≠ s.nextHandle := by
      rintro rfl
      simp [h.fresh] at hfound
    exact ⟨by simpa [hq] using hmem, found, by simpa [hother] using hfound,
      hon, hmode⟩

/-- One reference less; the file may disappear with it. -/
theorem drop (h : References s) (hfile : s.files filp = some file) (pid : Pid)
    (huses : ∀ other q, q ≠ pid ∨ other ≠ filp →
      s'.uses other q = s.uses other q)
    (hless : s'.uses filp pid + 1 = s.uses filp pid)
    (hcalls : ∀ q other filpWritable t,
      (s'.place q).call = some (other, filpWritable, t) →
        (s.place q).call = some (other, filpWritable, t) ∧ other ∈ s'.fds q)
    (hnext : s'.nextHandle = s.nextHandle)
    (hfiles : ∀ other, other ≠ filp → s'.files other = s.files other)
    (hdrop : s'.files filp = if 1 < file.count then
      some { file with count := file.count - 1 } else none) :
    References s' where
  total := by
    have hpos := h.positive filp file hfile
    refine h.total_change filp pid huses ?_ ?_
    · intro other hother
      simp [System.count, hfiles other hother]
    · simp only [System.count, hfile, hdrop]
      split <;> simp <;> omega
  positive other found hfound := by
    by_cases hother : other = filp
    · subst hother
      rw [hdrop] at hfound
      split at hfound
      · rename_i hmany
        obtain rfl := Option.some.inj hfound
        exact Nat.sub_pos_of_lt hmany
      · simp at hfound
    · exact h.positive other found (hfiles other hother ▸ hfound)
  fresh other hlarge := by
    have hnone := h.fresh other (hnext ▸ hlarge)
    have hother : other ≠ filp := by
      rintro rfl
      simp [hfile] at hnone
    rw [hfiles other hother, hnone]
  caller q other filpWritable t hcall := by
    obtain ⟨hold, hmem⟩ := hcalls _ _ _ _ hcall
    obtain ⟨-, found, hfound, hon, hmode⟩ := h.caller _ _ _ _ hold
    refine ⟨hmem, ?_⟩
    by_cases hother : other = filp
    · subst hother
      have htwo := h.two_le_count hold
      obtain rfl : file = found := Option.some.inj (hfile.symm.trans hfound)
      have hmore : 1 < file.count := by
        simpa [System.count, hfile, Nat.lt_iff_add_one_le] using htwo
      exact ⟨{ file with count := file.count - 1 },
        by rw [hdrop, if_pos hmore], hon, hmode⟩
    · exact ⟨found, (hfiles other hother).trans hfound, hon, hmode⟩

theorem enterCall (h : References s) (pid : Pid) (place : Place)
    (hfd : filp ∈ s.fds pid) (hfile : s.files filp = some file)
    (hdevice : file.onDevice = true) (hidle : s.place pid = .outside)
    {ticketCur : Word}
    (hplace : place.call = some (filp, file.writable, ticketCur)) :
    References ((fget s filp).setPlace pid place) := by
  refine h.take hfile pid ?_ ?_ ?_ rfl rfl
  · intro other q hne
    by_cases hq : q = pid
    · subst hq
      have hother : filp ≠ other := by
        rintro rfl
        simp at hne
      simp [System.uses, fget, Place.uses_of_call hplace, hidle, hother]
    · simp [System.uses, fget, hq]
  · simp [System.uses, fget, Place.uses_of_call hplace, hidle]
  · intro q other filpWritable t hcall
    by_cases hq : q = pid
    · subst hq
      simp [hplace] at hcall
      obtain ⟨rfl, rfl, rfl⟩ := hcall
      exact ⟨hfd, .inr ⟨rfl, hdevice, rfl⟩⟩
    · have hold : (s.place q).call = some (other, filpWritable, t) := by
        simpa [fget, hq] using hcall
      exact ⟨(h.caller _ _ _ _ hold).1, .inl hold⟩

theorem share (h : References s) (hfile : s.files filp = some file) (pid : Pid) :
    References { fget s filp with
      fds := Function.update s.fds pid (s.fds pid ++ [filp]) } := by
  refine h.take hfile pid ?_ ?_ ?_ rfl rfl
  · intro other q hne
    by_cases hq : q = pid
    · subst hq
      have hother : filp ≠ other := by
        rintro rfl
        simp at hne
      simp [System.uses, fget, hother]
    · simp [System.uses, fget, hq]
  · simp [System.uses, fget]
    omega
  · intro q other filpWritable t hcall
    refine ⟨?_, .inl hcall⟩
    have hmem := (h.caller q other filpWritable t hcall).1
    by_cases hq : q = pid
    · subst hq
      simp [hmem]
    · simpa [hq] using hmem

theorem leaveCall (h : References s) {filpWritable : Bool} {ticketCur : Word}
    (hcall : (s.place pid).call = some (filp, filpWritable, ticketCur)) :
    References (fput (s.setPlace pid .outside) filp) := by
  obtain ⟨-, file, hfile, -⟩ := h.caller _ _ _ _ hcall
  have hfiles := fput_files (s := s.setPlace pid .outside) hfile
  refine h.drop hfile pid ?_ ?_ ?_ (by simp) ?_ (by simp [hfiles])
  · intro other q hne
    by_cases hq : q = pid
    · subst hq
      have hother : filp ≠ other := by
        rintro rfl
        simp at hne
      simp [System.uses, Place.uses_of_call hcall, hother]
    · simp [System.uses, hq]
  · simp [System.uses, Place.uses_of_call hcall]
  · intro q other w t hnew
    by_cases hq : q = pid
    · subst hq
      simp at hnew
    · have hold : (s.place q).call = some (other, w, t) := by
        simpa [hq] using hnew
      exact ⟨hold, by simpa using (h.caller _ _ _ _ hold).1⟩
  · intro other hother
    simp [hfiles, hother]

theorem close (h : References s) (hfd : filp ∈ s.fds pid)
    (hidle : s.place pid = .outside) (hfile : s.files filp = some file) :
    References (fput { s with
      fds := Function.update s.fds pid ((s.fds pid).erase filp) } filp) := by
  set after : System :=
    { s with fds := Function.update s.fds pid ((s.fds pid).erase filp) }
  have hfiles := fput_files (s := after) hfile
  have hpos : 0 < (s.fds pid).count filp := List.count_pos_iff.mpr hfd
  refine h.drop hfile pid ?_ ?_ ?_ (by simp [after]) ?_ (by simp [hfiles])
  · intro other q hne
    by_cases hq : q = pid
    · subst hq
      have hother : other ≠ filp := by
        rintro rfl
        simp at hne
      simp [System.uses, after, List.count_erase_of_ne hother]
    · simp [System.uses, after, hq]
  · simp [System.uses, after, hidle, List.count_erase_self]
    omega
  · intro q other w t hnew
    have hold : (s.place q).call = some (other, w, t) := by simpa using hnew
    have hq : q ≠ pid := by
      rintro rfl
      simp [hidle] at hold
    exact ⟨hold, by simpa [after, hq] using (h.caller _ _ _ _ hold).1⟩
  · intro other hother
    simp [hfiles, after, hother]

end References

end Cs111Labs.Osprd
