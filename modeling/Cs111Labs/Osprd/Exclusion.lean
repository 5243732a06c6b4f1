import Cs111Labs.Osprd.Counters

/-!
# Writers exclude everyone

Every step keeps the invariant, except for the cases that `Careful` leaves out.
The one that matters is a last close: it clears `write_locks` for every file
that was opened for writing, also when another file holds the lock.
-/

namespace Cs111Labs.Osprd

open Foundation

variable {s s' : System} {pid : Pid} {filp filp' : Handle}
  {file : File} {filpWritable : Bool} {ticketCur : Word}
  {lock : ReadersWriter Handle}

/-! ## The lock mode -/

section Modes

@[simp] theorem lockMode_setPlace {place : Place} (other : Handle) :
    (s.setPlace pid place).lockMode other = s.lockMode other := rfl

@[simp] theorem lockMode_record {entry : Entry} (other : Handle) :
    (s.record entry).lockMode other = s.lockMode other := rfl

@[simp] theorem lockMode_wakeUpAll (other : Handle) :
    (wakeUpAll s).lockMode other = s.lockMode other := rfl

theorem lockMode_setFile (found : Option File) :
    (s.setFile filp found).lockMode =
      Function.update s.lockMode filp (found.bind File.lockMode) := by
  funext other
  by_cases hother : other = filp
  · subst hother
    simp [System.lockMode]
  · simp [System.lockMode, hother]

theorem lockMode_setLocked (hfile : s.files filp = some file)
    (hdevice : file.onDevice = true) (locked : Bool) :
    (s.setLocked filp locked).lockMode = Function.update s.lockMode filp
      (if locked then some file.writable else none) := by
  simp [System.setLocked, lockMode_setFile, hfile, File.lockMode, hdevice]

theorem shape_setLocked (filp : Handle) (locked : Bool) :
    (s.setLocked filp locked).shape = s.shape := by
  funext other
  by_cases hother : other = filp
  · subst hother
    cases hfile : s.files other <;>
      simp [System.shape, System.setLocked, hfile, File.shape]
  · simp [System.shape, System.setLocked, hother]

theorem lockMode_setCount (hfile : s.files filp = some file) (count : Nat) :
    (s.setFile filp (some { file with count := count })).lockMode =
      s.lockMode := by
  rw [lockMode_setFile, Function.update_eq_self_iff]
  simp [System.lockMode, hfile, File.lockMode]

end Modes

theorem fget_eq (hfile : s.files filp = some file) :
    fget s filp = s.setFile filp (some { file with count := file.count + 1 }) := by
  simp [fget, hfile]

theorem fput_of_shared (hfile : s.files filp = some file) (hcount : 1 < file.count) :
    fput s filp = s.setFile filp (some { file with count := file.count - 1 }) := by
  simp [fput, hfile, hcount]

theorem descriptor_eq_some (h : s.descriptor pid filp = some file) :
    s.place pid = .outside ∧ filp ∈ s.fds pid ∧ s.files filp = some file := by
  unfold System.descriptor at h
  split at h
  · rename_i hfree
    exact ⟨hfree.1, hfree.2, h⟩
  · simp at h

theorem deviceDescriptor_eq_some (h : s.deviceDescriptor pid filp = some file) :
    s.place pid = .outside ∧ filp ∈ s.fds pid ∧ s.files filp = some file ∧
      file.onDevice = true := by
  obtain ⟨hdescriptor, hdevice⟩ := Option.filter_eq_some_iff.mp h
  obtain ⟨hidle, hfd, hfile⟩ := descriptor_eq_some hdescriptor
  exact ⟨hidle, hfd, hfile, hdevice⟩

theorem forEachOpenFile_fields (files : Handle → Option File)
    (fds : List Handle) (d : Device) :
    ∃ writeIds readIds, forEachOpenFile files fds d =
      { d with writeIds := writeIds, readIds := readIds } := by
  induction fds generalizing d with
  | nil => exact ⟨d.writeIds, d.readIds, rfl⟩
  | cons filp fds ih =>
      rw [forEachOpenFile, List.foldl_cons]
      cases hfile : files filp with
      | none => exact ih d
      | some file =>
          obtain ⟨writeIds, readIds, heq⟩ := ih (inProgress file d)
          refine ⟨writeIds, readIds, heq.trans ?_⟩
          unfold inProgress
          split <;> rfl

theorem takeTicket_fields (s : System) (pid : Pid) :
    ∃ writeIds readIds, takeTicket s pid = { s.d with
      ticketHead := s.d.ticketHead + 1, writeIds := writeIds,
      readIds := readIds } := by
  obtain ⟨writeIds, readIds, heq⟩ := forEachOpenFile_fields s.files (s.fds pid)
    { s.d with ticketHead := s.d.ticketHead + 1, readIds := 0, writeIds := 0 }
  exact ⟨writeIds, readIds, heq⟩

@[simp] theorem takeTicket_writeLocks :
    (takeTicket s pid).writeLocks = s.d.writeLocks := by
  obtain ⟨_, _, heq⟩ := takeTicket_fields s pid
  rw [heq]

@[simp] theorem takeTicket_readLocks :
    (takeTicket s pid).readLocks = s.d.readLocks := by
  obtain ⟨_, _, heq⟩ := takeTicket_fields s pid
  rw [heq]

@[simp] theorem takeTicket_ticketHead :
    (takeTicket s pid).ticketHead = s.d.ticketHead + 1 := by
  obtain ⟨_, _, heq⟩ := takeTicket_fields s pid
  rw [heq]

@[simp] theorem takeTicket_ticketTail :
    (takeTicket s pid).ticketTail = s.d.ticketTail := by
  obtain ⟨_, _, heq⟩ := takeTicket_fields s pid
  rw [heq]

@[simp] theorem grant_ticketHead :
    (grant s pid filp filpWritable ticketCur).d.ticketHead =
      s.d.ticketHead := by
  cases filpWritable <;> rfl

@[simp] theorem grant_ticketTail :
    (grant s pid filp filpWritable ticketCur).d.ticketTail =
      s.d.ticketTail + 1 := by
  cases filpWritable <;> rfl

theorem Represents.granted (h : Represents s lock)
    (hfile : s.files filp = some file) (hdevice : file.onDevice = true)
    (hwrite : s.d.writeLocks = 0)
    (hread : file.writable = true → s.d.readLocks = 0)
    (hroom : file.writable = false → s.d.readLocks + 1 ≠ 0) {d : Device}
    (hwrite' : d.writeLocks =
      if file.writable then s.d.writeLocks + 1 else s.d.writeLocks)
    (hread' : d.readLocks =
      if file.writable then s.d.readLocks else s.d.readLocks + 1)
    (ticket : Option Word) :
    ∃ lock, Represents ((({ s with d := d }.setLocked filp true).record
      (.granted pid filp ticket)).record (.returned pid .ok)) lock := by
  have hmode := lockMode_setLocked (s := { s with d := d }) hfile hdevice true
  cases hwritable : file.writable with
  | true =>
      simp only [hwritable, if_true] at hwrite' hread' hmode
      exact ⟨_, h.grantWrite hwrite (hread hwritable) hwrite' hread' hmode
        fun other => rfl⟩
  | false =>
      simp only [hwritable, Bool.false_eq_true, if_false] at hwrite' hread'
      simp only [hwritable, if_true] at hmode
      exact ⟨_, h.grantRead hwrite (hroom hwritable) hwrite' hread' hmode
        fun other => rfl⟩

/-! ## The last close -/

@[simp] theorem osprdCloseLast_writeLocks :
    (osprdCloseLast s filp file).d.writeLocks =
      if file.writable then 0 else s.d.writeLocks := by
  unfold osprdCloseLast
  split
  · rfl
  · split <;> rfl

theorem osprdCloseLast_readLocks :
    (osprdCloseLast s filp file).d.readLocks =
      if file.writable then s.d.readLocks
      else if 0 < s.d.readLocks ∧ file.locked = true then s.d.readLocks - 1
      else s.d.readLocks := by
  unfold osprdCloseLast
  split
  · rfl
  · split <;> rfl

@[simp] theorem osprdCloseLast_ticketHead :
    (osprdCloseLast s filp file).d.ticketHead = s.d.ticketHead := by
  unfold osprdCloseLast
  split <;> [rfl; split <;> rfl]

@[simp] theorem osprdCloseLast_ticketTail :
    (osprdCloseLast s filp file).d.ticketTail = s.d.ticketTail := by
  unfold osprdCloseLast
  split <;> [rfl; split <;> rfl]

theorem osprdCloseLast_lockMode :
    (osprdCloseLast s filp file).lockMode =
      Function.update s.lockMode filp none := by
  funext other
  by_cases hother : other = filp
  · subst hother
    simp [System.lockMode]
  · simp [System.lockMode, hother]

theorem osprdCloseLast_scheduled
    (h : (osprdCloseLast s filp file).place pid =
      .scheduled filp' filpWritable ticketCur) :
    s.place pid = .scheduled filp' filpWritable ticketCur := by
  unfold osprdCloseLast at h
  split at h
  · exact Place.wake_eq_scheduled.mp h
  · split at h
    · exact Place.wake_eq_scheduled.mp h
    · exact h

theorem condition_of_fewer {d d' : Device}
    (h : condition d ticketCur filpWritable = true)
    (hwrite : d.writeLocks = 0 → d'.writeLocks = 0)
    (hread : d.readLocks = 0 → d'.readLocks = 0)
    (htail : d'.ticketTail = d.ticketTail) :
    condition d' ticketCur filpWritable = true := by
  obtain ⟨hw, hr, ht⟩ := condition_iff.mp h
  exact condition_iff.mpr
    ⟨hwrite hw, fun hwritable => hread (hr hwritable), ht.trans htail.symm⟩

theorem Tickets.osprdCloseLast (h : Tickets s) (filp : Handle) (file : File) :
    Tickets (osprdCloseLast s filp file) := by
  refine h.mono (by simp) (fun _ _ hcall => by simpa using hcall) ?_
  intro pid filp filpWritable ticketCur hplace
  refine condition_of_fewer
    (h.scheduled _ _ _ _ (osprdCloseLast_scheduled hplace)) ?_ ?_ (by simp)
  · intro hzero
    simp [hzero]
  · intro hzero
    simp [osprdCloseLast_readLocks, hzero]

theorem Represents.osprdCloseLast (h : Represents s lock)
    (hfile : s.files filp = some file) (hdevice : file.onDevice = true)
    (hcareful : file.writable = true → file.locked = false →
      ∀ other, s.lockMode other ≠ some true) :
    ∃ lock, Represents (osprdCloseLast s filp file) lock := by
  have hholds : ∀ other, Holds other (Osprd.osprdCloseLast s filp file).log =
      if filp = other then false else Holds other s.log := by
    intro other
    rw [osprdCloseLast_log]
    rfl
  cases hlocked : file.locked with
  | true =>
      have hmode : s.lockMode filp = some file.writable := by
        simp [System.lockMode, hfile, File.lockMode, hdevice, hlocked]
      refine ⟨_, h.giveBack hmode ?_ ?_ osprdCloseLast_lockMode hholds⟩
      · intro hreader
        simp [hreader]
      · rw [osprdCloseLast_readLocks]
        cases hwritable : file.writable with
        | true => rfl
        | false =>
            have hne := h.readLocks_ne_of_mode (hwritable ▸ hmode)
            simp only [hlocked, and_true, Bool.false_eq_true, if_false]
            rw [if_pos ((pos_iff _).mpr hne)]
  | false =>
      have hmode : s.lockMode filp = none := by
        simp [System.lockMode, hfile, File.lockMode, hlocked]
      have hmode' : ∀ other, (Osprd.osprdCloseLast s filp file).lockMode other =
          s.lockMode other := by
        intro other
        rw [osprdCloseLast_lockMode, ← hmode, Function.update_eq_self]
      have hholds' : ∀ other, Holds other (Osprd.osprdCloseLast s filp file).log =
          Holds other s.log := by
        intro other
        rw [hholds]
        split
        · rename_i heq
          have hnot := h.holds_iff other
          subst heq
          simpa [hmode] using hnot
        · rfl
      cases hwritable : file.writable with
      | true =>
          exact ⟨lock, h.clearWrite (hcareful hwritable hlocked) (by simp [hwritable])
            (by simp [osprdCloseLast_readLocks, hwritable]) hmode' hholds'⟩
      | false =>
          exact ⟨lock, h.congr (by simp [hwritable])
            (by simp [osprdCloseLast_readLocks, hwritable, hlocked]) hmode' hholds'⟩

namespace DeviceInvariant

theorem initial : DeviceInvariant osprdSetup where
  references :=
    { total := fun _ => Totals.zero
      positive := by simp [osprdSetup]
      fresh := by simp [osprdSetup]
      caller := by simp [osprdSetup] }
  tickets :=
    { ne_head := by simp [osprdSetup]
      injective := by simp [osprdSetup]
      scheduled := by simp [osprdSetup] }
  represents := ⟨.free,
    { writer_iff := by simp [ReadersWriter.free, System.lockMode, osprdSetup]
      reader_iff := by simp [ReadersWriter.free, System.lockMode, osprdSetup]
      writeLocks_ne := by simp [ReadersWriter.free]
      card_le := by simp [ReadersWriter.free]
      counters := by simp [osprdSetup]
      holds_iff := by simp [System.lockMode, osprdSetup, Holds] }⟩

theorem openFile (h : DeviceInvariant s) (hidle : s.place pid = .outside)
    (onDevice writable : Bool) :
    DeviceInvariant { s with
      files := Function.update s.files s.nextHandle
        (some { onDevice := onDevice, writable := writable })
      nextHandle := s.nextHandle + 1
      fds := Function.update s.fds pid (s.fds pid ++ [s.nextHandle]) } where
  references := h.references.openFile hidle onDevice writable
  tickets := h.tickets.mono rfl (fun _ _ hcall => hcall) h.tickets.scheduled
  represents := by
    obtain ⟨lock, hlock⟩ := h.represents
    refine ⟨lock, hlock.congr rfl rfl ?_ fun _ => rfl⟩
    intro other
    by_cases hother : other = s.nextHandle
    · subst hother
      simp [System.lockMode, File.lockMode, h.references.fresh s.nextHandle le_rfl]
    · simp [System.lockMode, hother]

theorem share (h : DeviceInvariant s) (hfile : s.files filp = some file)
    (pid : Pid) :
    DeviceInvariant { fget s filp with
      fds := Function.update s.fds pid (s.fds pid ++ [filp]) } where
  references := h.references.share hfile pid
  tickets := h.tickets.mono rfl (fun _ _ hcall => hcall) h.tickets.scheduled
  represents := by
    obtain ⟨lock, hlock⟩ := h.represents
    refine ⟨lock, hlock.congr rfl rfl ?_ fun _ => rfl⟩
    intro other
    have hmode := lockMode_setCount hfile (file.count + 1)
    exact congrFun (fget_eq hfile ▸ hmode) other

theorem close (h : DeviceInvariant s) (hfd : filp ∈ s.fds pid)
    (hidle : s.place pid = .outside) (hfile : s.files filp = some file)
    (hcareful : ¬ s.ClosesBesideWriter filp) :
    DeviceInvariant (fput { s with
      fds := Function.update s.fds pid ((s.fds pid).erase filp) } filp) := by
  refine ⟨h.references.close hfd hidle hfile, ?_, ?_⟩
  · have hbefore : Tickets { s with
        fds := Function.update s.fds pid ((s.fds pid).erase filp) } :=
      h.tickets.mono rfl (fun _ _ hcall => hcall) h.tickets.scheduled
    simp only [fput, hfile]
    split
    · exact hbefore.mono rfl (fun _ _ hcall => hcall) hbefore.scheduled
    · split
      · exact hbefore.osprdCloseLast filp file
      · exact hbefore.mono rfl (fun _ _ hcall => hcall) hbefore.scheduled
  · obtain ⟨lock, hlock⟩ := h.represents
    have hbefore : Represents { s with
        fds := Function.update s.fds pid ((s.fds pid).erase filp) } lock :=
      hlock.congr rfl rfl (fun _ => rfl) fun _ => rfl
    simp only [fput, hfile]
    split
    · exact ⟨lock, hbefore.congr rfl rfl
        (fun other => congrFun (lockMode_setCount hfile _) other) fun _ => rfl⟩
    · rename_i hlast
      split
      · rename_i hdevice
        refine hbefore.osprdCloseLast hfile hdevice ?_
        intro hwritable hlocked other hmode
        exact hcareful ⟨file, hfile, Nat.le_of_not_lt hlast, hdevice, hwritable,
          hlocked, other, hmode⟩
      · rename_i hdevice
        refine ⟨lock, hbefore.congr rfl rfl ?_ fun _ => rfl⟩
        intro other
        have hnone : s.lockMode filp = none := by
          simp [System.lockMode, hfile, File.lockMode, hdevice]
        rw [lockMode_setFile]
        exact congrFun (Function.update_eq_self_iff.mpr hnone.symm) other

theorem acquire (h : DeviceInvariant s)
    (hfile : s.deviceDescriptor pid filp = some file)
    (hcareful : Careful (.acquire pid filp) s) :
    DeviceInvariant (acquire s pid filp file.writable) := by
  have hwrap := hcareful.tickets pid filp rfl
  obtain ⟨hidle, hfd, hopen, hdevice⟩ := deviceDescriptor_eq_some hfile
  obtain ⟨lock, hlock⟩ := h.represents
  have hscheduled : ∀ pid' filp filpWritable ticketCur,
      s.place pid' = .scheduled filp filpWritable ticketCur →
        condition (takeTicket s pid) ticketCur filpWritable = true := by
    intro pid' filp filpWritable ticketCur hplace
    exact condition_of_fewer (h.tickets.scheduled _ _ _ _ hplace) (by simp)
      (by simp) (by simp)
  dsimp only [Osprd.acquire]
  set drawn : System := { s with d := takeTicket s pid }.record
    (.ticketTaken pid filp s.d.ticketHead)
  have hreferences : References drawn :=
    h.references.congr rfl rfl (fun _ => rfl) rfl
  have hdrawn : Represents drawn lock :=
    hlock.congr (by simp [drawn]) (by simp [drawn]) (fun _ => rfl) fun _ => rfl
  split
  · exact
      { references := hreferences.congr rfl rfl (fun _ => rfl) rfl
        tickets := h.tickets.draw pid hwrap (by simp [drawn])
          (fun _ _ hcall => .inl hcall) hscheduled
        represents := ⟨lock, hdrawn.congr rfl rfl (fun _ => rfl) fun _ => rfl⟩ }
  · rename_i hrefuse
    split
    · refine ⟨?_, ?_, ?_⟩
      · have hcall := hreferences.enterCall pid
          (.waiting filp file.writable s.d.ticketHead false) hfd hopen hdevice
          hidle rfl
        exact hcall.congr rfl rfl (fun _ => rfl) rfl
      · refine h.tickets.draw pid hwrap (by simp [drawn, fget]) ?_ ?_
        · intro other call hcall
          by_cases hother : other = pid
          · subst hother
            simp [Place.call] at hcall
            exact .inr ⟨rfl, by simp [← hcall]⟩
          · exact .inl (by simpa [hother, fget, drawn] using hcall)
        · intro other otherFilp otherWritable otherTicket hplace
          by_cases hother : other = pid
          · subst hother
            simp at hplace
          · exact hscheduled _ _ _ _
              (by simpa [hother, fget, drawn] using hplace)
      · refine ⟨lock, hdrawn.congr rfl rfl ?_ fun _ => rfl⟩
        intro other
        have hmode := lockMode_setCount (s := drawn) hopen (file.count + 1)
        exact congrFun (fget_eq (s := drawn) hopen ▸ hmode) other
    · rename_i hwait
      have hcondition : condition (takeTicket s pid) s.d.ticketHead
          file.writable = true := by
        simpa [hasToWait_eq] using hwait
      obtain ⟨hwrite, hread, hturn⟩ := condition_iff.mp hcondition
      refine ⟨?_, ?_, ?_⟩
      · exact hreferences.congr (shape_setLocked _ _) rfl (fun _ => rfl) rfl
      · refine h.tickets.draw pid hwrap (by simp [drawn])
          (fun _ _ hcall => .inl hcall) ?_
        intro other otherFilp otherWritable otherTicket hplace
        exact absurd hplace
          (h.tickets.not_scheduled (by simpa using hturn) _ _ _ _)
      · refine hdrawn.granted hopen hdevice hwrite hread ?_ ?_ ?_ _
        · intro hreader
          have hrefuse' : refusesAsDeadlock (takeTicket s pid) pid
              file.writable = false := by
            simpa using hrefuse
          have hroom := hcareful.readers
            ⟨file, hfile, hreader, hreader ▸ hrefuse', by
              simpa [hreader] using hwait⟩
          simpa [drawn] using hroom
        · split <;> rfl
        · split <;> rfl

theorem tryAcquire (h : DeviceInvariant s)
    (hfile : s.deviceDescriptor pid filp = some file)
    (hcareful : Careful (.tryAcquire pid filp) s) :
    DeviceInvariant (tryAcquire s pid filp file.writable) := by
  obtain ⟨hidle, hfd, hopen, hdevice⟩ := deviceDescriptor_eq_some hfile
  obtain ⟨lock, hlock⟩ := h.represents
  have hbusy : DeviceInvariant (s.record (.returned pid .ebusy)) :=
    { references := h.references.congr rfl rfl (fun _ => rfl) rfl
      tickets := h.tickets.mono rfl (fun _ _ hcall => hcall) h.tickets.scheduled
      represents := ⟨lock, hlock.congr rfl rfl (fun _ => rfl) fun _ => rfl⟩ }
  -- Granting at once needs that no ticket is out.
  have hgrant : ∀ d : Device, d.ticketHead = s.d.ticketHead →
      s.d.ticketHead = s.d.ticketTail →
      (∃ lock, Represents ((({ s with d := d }.setLocked filp true).record
        (.granted pid filp none)).record (.returned pid .ok)) lock) →
      DeviceInvariant ((({ s with d := d }.setLocked filp true).record
        (.granted pid filp none)).record (.returned pid .ok)) := by
    intro d hhead hidle hrepresents
    refine ⟨?_, ?_, hrepresents⟩
    · exact h.references.congr (shape_setLocked (s := { s with d := d }) _ _)
        rfl (fun _ => rfl) rfl
    · refine h.tickets.mono hhead (fun _ _ hcall => hcall) ?_
      intro other otherFilp otherWritable otherTicket hplace
      exact absurd hplace (h.tickets.not_scheduled hidle _ _ _ _)
  unfold Osprd.tryAcquire
  cases hwritable : file.writable with
  | true =>
      simp only [if_true]
      split
      · exact hbusy
      · rename_i hfree
        simp only [pos_iff, not_or, not_not, ne_eq] at hfree
        obtain ⟨hwrite, hread, hturn⟩ := hfree
        refine hgrant _ rfl hturn ?_
        exact hlock.granted hopen hdevice hwrite (fun _ => hread)
          (by simp [hwritable]) (by simp [hwritable]) (by simp [hwritable]) none
  | false =>
      simp only [Bool.false_eq_true, if_false]
      split
      · exact hbusy
      · rename_i hfree
        simp only [pos_iff, not_or, not_not, ne_eq] at hfree
        obtain ⟨hwrite, hturn⟩ := hfree
        refine hgrant _ rfl hturn ?_
        exact hlock.granted hopen hdevice hwrite (by simp [hwritable])
          (fun _ => hcareful.readers ⟨file, hfile, hwritable, hwrite, hturn⟩)
          (by simp [hwritable]) (by simp [hwritable]) none

theorem release (h : DeviceInvariant s)
    (hfile : s.deviceDescriptor pid filp = some file) :
    DeviceInvariant (release s pid filp file) := by
  obtain ⟨hidle, hfd, hopen, hdevice⟩ := deviceDescriptor_eq_some hfile
  obtain ⟨lock, hlock⟩ := h.represents
  unfold Osprd.release
  cases hlocked : file.locked with
  | false =>
      exact
        { references := h.references.congr rfl rfl (fun _ => rfl) rfl
          tickets := h.tickets.mono rfl (fun _ _ hcall => hcall)
            h.tickets.scheduled
          represents := ⟨lock, hlock.congr rfl rfl (fun _ => rfl) fun _ => rfl⟩ }
  | true =>
      have hmode : s.lockMode filp = some file.writable := by
        simp [System.lockMode, hopen, File.lockMode, hdevice, hlocked]
      simp only [Bool.true_eq_false, if_false]
      refine ⟨?_, ?_, ?_⟩
      · exact h.references.congr (shape_setLocked _ _) rfl
          (fun _ => Place.call_wake _) rfl
      · refine h.tickets.mono ?_ ?_ ?_
        · cases file.writable <;> rfl
        · intro other call hcall
          simpa using hcall
        · intro other otherFilp otherWritable otherTicket hplace
          have hcondition :=
            h.tickets.scheduled _ _ _ _ (Place.wake_eq_scheduled.mp hplace)
          cases hwritable : file.writable with
          | true =>
              have hne := hlock.writeLocks_ne_of_mode (hwritable ▸ hmode)
              exact absurd (condition_iff.mp hcondition).1 hne
          | false =>
              have hne := hlock.readLocks_ne_of_mode (hwritable ▸ hmode)
              exact condition_of_fewer hcondition id
                (fun hzero => absurd hzero hne) rfl
      · refine ⟨_, hlock.giveBack hmode ?_ ?_ ?_ fun other => rfl⟩
        · intro hreader
          simp [hreader]
        · cases file.writable <;> rfl
        · exact lockMode_setLocked hopen hdevice false

theorem moveOn (h : DeviceInvariant s) {place : Place}
    (hplace : place.call = (s.place pid).call)
    (hcondition : ∀ filp filpWritable ticketCur,
      place = .scheduled filp filpWritable ticketCur →
        condition s.d ticketCur filpWritable = true) :
    DeviceInvariant (s.setPlace pid place) := by
  obtain ⟨lock, hlock⟩ := h.represents
  have hcall : ∀ other,
      ((s.setPlace pid place).place other).call = (s.place other).call := by
    intro other
    by_cases hother : other = pid
    · subst hother
      simpa using hplace
    · simp [hother]
  refine ⟨h.references.congr rfl rfl hcall rfl, ?_,
    lock, hlock.congr rfl rfl (fun _ => rfl) fun _ => rfl⟩
  refine h.tickets.mono rfl (fun other call hnew => hcall other ▸ hnew) ?_
  intro other otherFilp otherWritable otherTicket hnew
  by_cases hother : other = pid
  · subst hother
    exact hcondition _ _ _ (by simpa using hnew)
  · exact h.tickets.scheduled other _ _ _ (by simpa [hother] using hnew)

/-- A blocked call returns; the caller's descriptor keeps the file open. -/
theorem leave (h : Tickets s) (after : System) (hreferences : References after)
    (hplace : after.place = s.place)
    (hhead : after.d.ticketHead = s.d.ticketHead)
    (hcall : (s.place pid).call = some (filp, filpWritable, ticketCur))
    (hscheduled : ∀ other filp filpWritable ticketCur, other ≠ pid →
      s.place other = .scheduled filp filpWritable ticketCur →
        condition after.d ticketCur filpWritable = true)
    (hlock : ∃ lock, Represents after lock) :
    DeviceInvariant (fput (after.setPlace pid .outside) filp) := by
  rw [← hplace] at hcall
  obtain ⟨-, file, hfile, -⟩ := hreferences.caller _ _ _ _ hcall
  have hshared : 1 < file.count := by
    simpa [System.count, hfile, Nat.lt_iff_add_one_le] using
      hreferences.two_le_count hcall
  have hfput := fput_of_shared (s := after.setPlace pid .outside) hfile hshared
  refine ⟨hreferences.leaveCall hcall, ?_, ?_⟩
  · rw [hfput]
    refine h.mono hhead ?_ ?_
    · intro other call hnew
      by_cases hother : other = pid
      · subst hother
        simp at hnew
      · simpa [hother, hplace] using hnew
    · intro other otherFilp otherWritable otherTicket hnew
      by_cases hother : other = pid
      · subst hother
        simp at hnew
      · exact hscheduled other _ _ _ hother (by simpa [hother, hplace] using hnew)
  · obtain ⟨lock, hlock⟩ := hlock
    rw [hfput]
    exact ⟨lock, hlock.congr rfl rfl
      (fun other => congrFun (lockMode_setCount hfile _) other) fun _ => rfl⟩

theorem interrupt (h : DeviceInvariant s) {woken : Bool}
    (hplace : s.place pid = .waiting filp filpWritable ticketCur woken) :
    DeviceInvariant (interrupt s pid filp ticketCur) := by
  have hcall : (s.place pid).call = some (filp, filpWritable, ticketCur) := by
    rw [hplace]
    rfl
  obtain ⟨lock, hlock⟩ := h.represents
  have hleft : ∀ d : Device, d.ticketHead = s.d.ticketHead →
      d.writeLocks = s.d.writeLocks → d.readLocks = s.d.readLocks →
      (∀ other filp filpWritable ticketCur, other ≠ pid →
        s.place other = .scheduled filp filpWritable ticketCur →
          condition d ticketCur filpWritable = true) →
      DeviceInvariant
        ((fput ({ s with d := d }.setPlace pid .outside) filp).record
          (.returned pid .erestartsys)) := by
    intro d hhead hwrite hread hscheduled
    have hleave := leave h.tickets { s with d := d }
      (h.references.congr rfl rfl (fun _ => rfl) rfl) rfl hhead hcall hscheduled
      ⟨lock, hlock.congr hwrite hread (fun _ => rfl) fun _ => rfl⟩
    obtain ⟨hreferences, htickets, lock', hlock'⟩ := hleave
    exact ⟨hreferences.congr rfl rfl (fun _ => rfl) rfl,
      htickets.mono rfl (fun _ _ hold => hold) htickets.scheduled,
      lock', hlock'.congr rfl rfl (fun _ => rfl) fun _ => rfl⟩
  dsimp only [Osprd.interrupt]
  split
  · rename_i hturn
    refine hleft _ rfl rfl rfl ?_
    intro other _ _ _ hother hnew
    exact absurd (h.tickets.scheduled_unique hcall hturn hnew) hother
  · exact hleft _ rfl rfl rfl fun other _ _ _ _ hnew =>
      h.tickets.scheduled other _ _ _ hnew

theorem proceed (h : DeviceInvariant s)
    (hplace : s.place pid = .scheduled filp filpWritable ticketCur)
    (hcareful : Careful (.proceed pid) s) :
    DeviceInvariant (fput ((grant s pid filp filpWritable ticketCur).setPlace pid
      .outside) filp) := by
  have hcall := Place.call_of_scheduled hplace
  obtain ⟨-, file, hfile, hdevice, rfl⟩ := h.references.caller _ _ _ _ hcall
  obtain ⟨hwrite, hread, hturn⟩ :=
    condition_iff.mp (h.tickets.scheduled _ _ _ _ hplace)
  obtain ⟨lock, hlock⟩ := h.represents
  refine leave h.tickets _ ?_ rfl grant_ticketHead hcall ?_ ?_
  · exact h.references.congr (shape_setLocked _ _) rfl (fun _ => rfl) rfl
  · intro other _ _ _ hother hnew
    exact absurd (h.tickets.scheduled_unique hcall hturn hnew) hother
  · refine hlock.granted hfile hdevice hwrite hread ?_ ?_ ?_ _
    · intro hreader
      exact hcareful.readers ⟨filp, ticketCur, hreader ▸ hplace⟩
    · split <;> rfl
    · split <;> rfl

theorem step (h : DeviceInvariant s) {action : Action}
    (hcareful : Careful action s) (hstep : step action s = some s') :
    DeviceInvariant s' := by
  cases action with
  | openFile pid onDevice writable =>
      simp only [Osprd.step] at hstep
      split at hstep
      · rename_i hidle
        exact Option.some.inj hstep ▸ h.openFile hidle onDevice writable
      · simp at hstep
  | share owner pid filp =>
      obtain ⟨file, hfile, rfl⟩ := Option.map_eq_some_iff.mp hstep
      exact h.share (descriptor_eq_some hfile).2.2 pid
  | close pid filp =>
      obtain ⟨file, hfile, rfl⟩ := Option.map_eq_some_iff.mp hstep
      obtain ⟨hidle, hfd, hopen⟩ := descriptor_eq_some hfile
      exact h.close hfd hidle hopen (hcareful.closes pid filp rfl)
  | acquire pid filp =>
      obtain ⟨file, hfile, rfl⟩ := Option.map_eq_some_iff.mp hstep
      exact h.acquire hfile hcareful
  | tryAcquire pid filp =>
      obtain ⟨file, hfile, rfl⟩ := Option.map_eq_some_iff.mp hstep
      exact h.tryAcquire hfile hcareful
  | release pid filp =>
      obtain ⟨file, hfile, rfl⟩ := Option.map_eq_some_iff.mp hstep
      exact h.release hfile
  | resume pid =>
      simp only [Osprd.step] at hstep
      split at hstep
      · rename_i filp filpWritable ticketCur hplace
        split at hstep
        · rename_i hcondition
          refine Option.some.inj hstep ▸ h.moveOn ?_ ?_
          · rw [hplace]
            rfl
          · rintro _ _ _ heq
            cases heq
            exact hcondition
        · refine Option.some.inj hstep ▸ h.moveOn ?_ (by simp)
          rw [hplace]
          rfl
      · simp at hstep
  | signal pid =>
      simp only [Osprd.step] at hstep
      split at hstep
      · rename_i filp filpWritable ticketCur woken hplace
        split at hstep
        · rename_i hcondition
          refine Option.some.inj hstep ▸ h.moveOn ?_ ?_
          · rw [hplace]
            rfl
          · rintro _ _ _ heq
            cases heq
            exact hcondition
        · exact Option.some.inj hstep ▸ h.interrupt hplace
      · simp at hstep
  | proceed pid =>
      simp only [Osprd.step] at hstep
      split at hstep
      · rename_i filp filpWritable ticketCur hplace
        exact Option.some.inj hstep ▸ h.proceed hplace hcareful
      · simp at hstep

end DeviceInvariant

/-! ## Exclusion -/

/-- No other file holds the lock beside one that is open for writing. -/
def WritersExclude (s : System) : Prop :=
  ∀ filp file other, s.files filp = some file → file.writable = true →
    Holds filp s.log = true → Holds other s.log = true → other = filp

theorem DeviceInvariant.writersExclude (h : DeviceInvariant s) :
    WritersExclude s := by
  intro filp file other hfile hwritable hfilp hother
  obtain ⟨lock, hlock⟩ := h.represents
  have hwriter : lock.writer = some filp := by
    obtain ⟨mode, hmode⟩ :=
      Option.isSome_iff_exists.mp ((hlock.holds_iff filp).mp hfilp)
    have hsame : mode = true := by
      simp [System.lockMode, hfile, File.lockMode] at hmode
      rw [← hmode.2, hwritable]
    exact (hlock.writer_iff filp).mpr (hsame ▸ hmode)
  have hholder : lock.Holds other := by
    obtain ⟨mode, hmode⟩ :=
      Option.isSome_iff_exists.mp ((hlock.holds_iff other).mp hother)
    cases mode with
    | true => exact .inl ((hlock.writer_iff other).mpr hmode)
    | false => exact .inr ((hlock.reader_iff other).mpr hmode)
  exact ReadersWriter.holds_of_writer hwriter hholder

theorem deviceInvariant_of_reaches (h : Reaches step Careful osprdSetup s) :
    DeviceInvariant s :=
  h.invariant .initial fun _ _ _ hinv hcareful hstep =>
    hinv.step hcareful hstep

theorem writersExclude_of_careful (h : Reaches step Careful osprdSetup s) :
    WritersExclude s :=
  (deviceInvariant_of_reaches h).writersExclude

theorem careful_openFile (onDevice writable : Bool) :
    Careful (.openFile pid onDevice writable) s where
  closes := by simp
  tickets := by simp
  readers h := h.elim

theorem writersExclude_of_careful_oneWriter :
    ∃ s, runEvents step
        [.openFile 0 true true, .openFile 1 true false, .acquire 0 0]
        osprdSetup = some s ∧
      Holds 0 s.log = true ∧ WritersExclude s := by
  refine ⟨_, rfl, rfl, writersExclude_of_careful
    (((Reaches.start.next (.openFile 0 true true) (careful_openFile _ _)
      rfl).next (.openFile 1 true false) (careful_openFile _ _) rfl).next
        (.acquire 0 0) ?_ rfl)⟩
  refine ⟨by simp, ?_, ?_⟩
  · rintro _ _ - ⟨pid, filp, filpWritable, hcall⟩
    simp [osprdSetup] at hcall
  · rintro ⟨file, hfile, hreader, -⟩
    obtain ⟨-, -, hopen, -⟩ := deviceDescriptor_eq_some hfile
    obtain rfl := Option.some.inj hopen
    simp at hreader

/-- Handle 1 is closed while handle 0 holds the write lock. -/
def closeBesideWriter : List Action :=
  [.openFile 0 true true, .openFile 1 true true, .openFile 2 true true,
    .acquire 0 0, .close 1 1, .acquire 2 2]

theorem closeBesideWriter_not_writersExclude :
    ¬ ∀ s, Reaches step (fun _ _ => True) osprdSetup s → WritersExclude s := by
  intro hall
  obtain ⟨s, hrun, hfile, hfirst, hsecond⟩ : ∃ s,
      runEvents step closeBesideWriter osprdSetup = some s ∧
      (s.files 0).map (·.writable) = some true ∧
      Holds 0 s.log = true ∧ Holds 2 s.log = true := ⟨_, rfl, rfl, rfl, rfl⟩
  obtain ⟨file, hopen, hwritable⟩ := Option.map_eq_some_iff.mp hfile
  have hsame := hall s (Reaches.of_runEvents _ .start hrun) 0 file 2 hopen
    hwritable hfirst hsecond
  exact absurd hsame (by decide)

end Cs111Labs.Osprd
