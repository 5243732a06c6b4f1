import Cs111Labs.Osprd.SelfBlock

/-!
# Replies to requests for the lock

Both ioctls draw the line between granting and waiting alike.  Only
`OSPRDIOCACQUIRE` looks at the open files of its caller, and it looks at all of
them.
-/

namespace Cs111Labs.Osprd

open Foundation

variable {s s' : System} {pid : Pid} {filp : Handle} {file : File} {w : Bool}

/-- The files of the caller speak against the request. -/
def System.SeesConflict (s : System) (pid : Pid) (filpWritable : Bool) : Prop :=
  s.Opens pid (!filpWritable) ∨
    filpWritable = true ∧ (pid : Int) = s.d.writeOwner

theorem refuses_iff_seesConflict :
    refusesAsDeadlock (takeTicket s pid) pid w = true ↔ s.SeesConflict pid w :=
  refusesAsDeadlock_iff

/-- A request that is made now finds the lock free and nobody ahead. -/
def System.Free (s : System) (filpWritable : Bool) : Prop :=
  condition s.d s.d.ticketHead filpWritable = true

theorem hasToWait_takeTicket (s : System) (pid : Pid) (w : Bool) :
    hasToWait (takeTicket s pid) s.d.ticketHead w = true ↔ ¬ s.Free w := by
  rw [hasToWait_eq, Bool.not_eq_true', ← Bool.not_eq_true, System.Free, condition_iff,
    condition_iff, takeTicket_writeLocks, takeTicket_readLocks, takeTicket_ticketTail]

theorem acquire_refused (filp : Handle) (h : s.SeesConflict pid w) :
    acquire s pid filp w =
      (System.record { s with d := takeTicket s pid }
        (.ticketTaken pid filp s.d.ticketHead)).record (.returned pid .edeadlk) := by
  unfold acquire
  dsimp only
  rw [if_pos (refuses_iff_seesConflict.2 h)]

theorem acquire_blocked_reply (filp : Handle) (h : ¬ s.SeesConflict pid w)
    (hbusy : ¬ s.Free w) :
    (acquire s pid filp w).log.head? = some (.returned pid .blocked) := by
  unfold acquire
  dsimp only
  rw [if_neg (mt refuses_iff_seesConflict.1 h),
    if_pos ((hasToWait_takeTicket s pid w).2 hbusy)]
  rfl

theorem acquire_granted (filp : Handle) (h : ¬ s.SeesConflict pid w) (hfree : s.Free w) :
    acquire s pid filp w =
      grant (System.record { s with d := takeTicket s pid }
        (.ticketTaken pid filp s.d.ticketHead)) pid filp w s.d.ticketHead := by
  unfold acquire
  dsimp only
  rw [if_neg (mt refuses_iff_seesConflict.1 h),
    if_neg fun hwait => (hasToWait_takeTicket s pid w).1 hwait hfree]

/-- Files first, then the lock: the three replies. -/
theorem acquire_reply (s : System) (pid : Pid) (filp : Handle) (w : Bool) :
    s.SeesConflict pid w ∧
        (acquire s pid filp w).log.head? = some (.returned pid .edeadlk) ∨
      ¬ s.SeesConflict pid w ∧ ¬ s.Free w ∧
        (acquire s pid filp w).log.head? = some (.returned pid .blocked) ∨
      ¬ s.SeesConflict pid w ∧ s.Free w ∧
        (acquire s pid filp w).log.head? = some (.returned pid .ok) := by
  by_cases hfiles : s.SeesConflict pid w
  · exact .inl ⟨hfiles, by rw [acquire_refused filp hfiles]; rfl⟩
  · by_cases hfree : s.Free w
    · exact .inr (.inr ⟨hfiles, hfree, by rw [acquire_granted filp hfiles hfree]; rfl⟩)
    · exact .inr (.inl ⟨hfiles, hfree, acquire_blocked_reply filp hfiles hfree⟩)

/-! ## Further open files -/

/-- The states differ only in what the process has open without a lock.  The
fields that each request fills anew may differ as well. -/
structure SameButFurther (pid : Pid) (s s' : System) : Prop where
  device : s'.d = { s.d with readIds := s'.d.readIds, writeIds := s'.d.writeIds }
  place : s'.place = s.place
  others : ∀ other, other ≠ pid → s'.fds other = s.fds other
  locks : s'.lockMode = s.lockMode
  held : ∀ filp, s.lockMode filp ≠ none → (filp ∈ s'.fds pid ↔ filp ∈ s.fds pid)

theorem SameButFurther.free_iff (h : SameButFurther pid s s') (w : Bool) :
    s'.Free w ↔ s.Free w := by
  rw [System.Free, System.Free, condition_iff, condition_iff, h.device]

theorem SameButFurther.ownsLock_iff (h : SameButFurther pid s s') {mode : Bool} :
    s'.OwnsLock pid mode ↔ s.OwnsLock pid mode := by
  unfold System.OwnsLock
  rw [h.locks]
  constructor
  · rintro ⟨filp, hfd, hmode⟩
    exact ⟨filp, (h.held filp (by simp [hmode])).1 hfd, hmode⟩
  · rintro ⟨filp, hfd, hmode⟩
    exact ⟨filp, (h.held filp (by simp [hmode])).2 hfd, hmode⟩

/-- The reply is the same in both states and, to a process that holds no lock,
not `-EDEADLK`. -/
def IgnoresFurtherFiles (s s' : System) (pid : Pid) (filp : Handle) (w : Bool) : Prop :=
  (acquire s' pid filp w).log.head? = (acquire s pid filp w).log.head? ∧
    ((∀ mode, ¬ s.OwnsLock pid mode) →
      ¬ ReturnsDeadlock s pid filp w ∧ ¬ ReturnsDeadlock s' pid filp w)

/-- A file of the other mode is open in both states or in none; it is open in
none, and the process is not the owner, if the process holds no lock. -/
def Unaffected (s s' : System) (pid : Pid) (w : Bool) : Prop :=
  ((s'.Opens pid (!w) ↔ s.Opens pid (!w)) ∨ w = true ∧ (pid : Int) = s.d.writeOwner) ∧
    ((∀ mode, ¬ s.OwnsLock pid mode) →
      ¬ s.Opens pid (!w) ∧ ¬ (w = true ∧ (pid : Int) = s.d.writeOwner))

theorem SameButFurther.reply_eq_iff (h : SameButFurther pid s s') (filp : Handle)
    (w : Bool) :
    (acquire s' pid filp w).log.head? = (acquire s pid filp w).log.head? ↔
      (s'.SeesConflict pid w ↔ s.SeesConflict pid w) := by
  have hfree := h.free_iff w
  rcases acquire_reply s pid filp w with ⟨hs, heq⟩ | ⟨hs, hf, heq⟩ | ⟨hs, hf, heq⟩ <;>
    rcases acquire_reply s' pid filp w with ⟨hs', heq'⟩ | ⟨hs', hf', heq'⟩ | ⟨hs', hf', heq'⟩ <;>
    rw [heq, heq'] <;> simp_all

theorem acquire_ignoresFurtherFiles_iff (h : SameButFurther pid s s')
    (hfile : s.deviceDescriptor pid filp = some file) :
    IgnoresFurtherFiles s s' pid filp file.writable ↔
      Unaffected s s' pid file.writable := by
  obtain ⟨hidle, -⟩ := deviceDescriptor_eq_some hfile
  have hidle' : s'.place pid = .outside := by rw [h.place, hidle]
  have howner : s'.d.writeOwner = s.d.writeOwner := by rw [h.device]
  unfold IgnoresFurtherFiles Unaffected
  rw [h.reply_eq_iff filp, returnsDeadlock_iff hidle, returnsDeadlock_iff hidle', howner]
  unfold System.SeesConflict
  rw [howner]
  by_cases hnone : ∀ mode, ¬ s.OwnsLock pid mode
  · tauto
  · tauto

/-- Opening a file is the way to such a pair of states. -/
theorem sameButFurther_openFile {onDevice : Bool} (hfresh : s.files s.nextHandle = none)
    (hstep : step (.openFile pid onDevice w) s = some s') : SameButFurther pid s s' := by
  simp only [step, Option.ite_none_right_eq_some, Option.some.injEq] at hstep
  obtain ⟨-, rfl⟩ := hstep
  refine ⟨rfl, rfl, fun other hother => ?_, ?_, fun filp hmode => ?_⟩
  · exact Function.update_of_ne hother ..
  · funext filp
    by_cases hfilp : filp = s.nextHandle
    · rw [hfilp]
      simp [System.lockMode, hfresh, File.lockMode]
    · simp [System.lockMode, hfilp]
  · have hfilp : filp ≠ s.nextHandle := by
      rintro rfl
      exact hmode (by rw [System.lockMode, hfresh, Option.bind_none])
    simp [hfilp]

/-- A process opens the device for writing. -/
def oneWriter : List Action := [.openFile 0 true true]

theorem acquire_ignoresFurtherFiles_iff_other :
    ∃ s s', ∃ file : File, runEvents step oneWriter osprdSetup = some s ∧
      step (.openFile 0 false true) s = some s' ∧
      (IgnoresFurtherFiles s s' 0 0 file.writable ↔ Unaffected s s' 0 file.writable) :=
  ⟨_, _, _, rfl, rfl,
    acquire_ignoresFurtherFiles_iff (sameButFurther_openFile rfl rfl) rfl⟩

/-- A file of another device, opened for reading, refuses the lock to its
process, which holds none. -/
theorem otherDevice_not_ignoresFurtherFiles :
    ¬ ∀ s s', Reaches step (fun _ _ => True) osprdSetup s →
      Reaches step (fun _ _ => True) osprdSetup s' →
      ∀ pid filp file, SameButFurther pid s s' → s.deviceDescriptor pid filp = some file →
        IgnoresFurtherFiles s s' pid filp file.writable := by
  intro hall
  obtain ⟨s, s', hrun, hstep, hfresh, hfile, hreply, hreply'⟩ : ∃ s s',
      runEvents step oneWriter osprdSetup = some s ∧
      step (.openFile 0 false false) s = some s' ∧ s.files s.nextHandle = none ∧
      (∃ file, s.deviceDescriptor 0 0 = some file ∧ file.writable = true) ∧
      (acquire s 0 0 true).log.head? = some (.returned 0 .ok) ∧
      (acquire s' 0 0 true).log.head? = some (.returned 0 .edeadlk) :=
    ⟨_, _, rfl, rfl, rfl, ⟨_, rfl, rfl⟩, rfl, rfl⟩
  have hreach := Reaches.of_runEvents _ .start hrun
  obtain ⟨file, hopen, hwriter⟩ := hfile
  have hsame := hall s s' hreach (hreach.next _ trivial hstep) 0 0 file
    (sameButFurther_openFile hfresh hstep) hopen
  rw [hwriter] at hsame
  have heq := hsame.1
  rw [hreply, hreply'] at heq
  simp at heq

/-! ## `OSPRDIOCTRYACQUIRE` -/

theorem tryAcquire_granted (pid : Pid) (filp : Handle) (hfree : s.Free w) :
    (tryAcquire s pid filp w).log.head? = some (.returned pid .ok) ∧
      (tryAcquire s pid filp w).files = (s.setLocked filp true).files ∧
      (tryAcquire s pid filp w).d =
        if w then { s.d with writeOwner := pid, writeLocks := s.d.writeLocks + 1 }
        else { s.d with readLocks := s.d.readLocks + 1 } := by
  obtain ⟨hwrite, hread, hturn⟩ := condition_iff.1 hfree
  unfold tryAcquire
  cases w with
  | true =>
      rw [if_pos rfl, if_neg (by simp [hwrite, hread rfl, hturn])]
      exact ⟨rfl, rfl, rfl⟩
  | false =>
      rw [if_neg Bool.false_ne_true, if_neg (by simp [hwrite, hturn])]
      exact ⟨rfl, rfl, rfl⟩

theorem tryAcquire_busy (pid : Pid) (filp : Handle) (hbusy : ¬ s.Free w) :
    tryAcquire s pid filp w = s.record (.returned pid .ebusy) := by
  unfold tryAcquire
  cases w with
  | true =>
      rw [if_pos rfl, if_pos]
      by_contra hnot
      simp only [pos_iff, not_or, ne_eq, not_not] at hnot
      exact hbusy (condition_iff.2 ⟨hnot.1, fun _ => hnot.2.1, hnot.2.2⟩)
  | false =>
      rw [if_neg Bool.false_ne_true, if_pos]
      by_contra hnot
      simp only [pos_iff, not_or, ne_eq, not_not] at hnot
      exact hbusy (condition_iff.2 ⟨hnot.1, fun h => absurd h Bool.false_ne_true, hnot.2⟩)

/-- The two requests have the same effect where `OSPRDIOCACQUIRE` is granted at
once; everywhere else the attempt fails and leaves no trace. -/
structure TryAgrees (s : System) (pid : Pid) (filp : Handle) (w : Bool) : Prop where
  ok_iff : (tryAcquire s pid filp w).log.head? = some (.returned pid .ok) ↔
    (acquire s pid filp w).log.head? = some (.returned pid .ok)
  same : (acquire s pid filp w).log.head? = some (.returned pid .ok) →
    (tryAcquire s pid filp w).d.readLocks = (acquire s pid filp w).d.readLocks ∧
    (tryAcquire s pid filp w).d.writeLocks = (acquire s pid filp w).d.writeLocks ∧
    (tryAcquire s pid filp w).d.writeOwner = (acquire s pid filp w).d.writeOwner ∧
    (tryAcquire s pid filp w).files = (acquire s pid filp w).files
  busy : (acquire s pid filp w).log.head? ≠ some (.returned pid .ok) →
    tryAcquire s pid filp w = s.record (.returned pid .ebusy)

theorem tryAcquire_same (hfiles : ¬ s.SeesConflict pid w) (hfree : s.Free w) :
    (tryAcquire s pid filp w).d.readLocks = (acquire s pid filp w).d.readLocks ∧
      (tryAcquire s pid filp w).d.writeLocks = (acquire s pid filp w).d.writeLocks ∧
      (tryAcquire s pid filp w).d.writeOwner = (acquire s pid filp w).d.writeOwner ∧
      (tryAcquire s pid filp w).files = (acquire s pid filp w).files := by
  obtain ⟨-, hset, hd⟩ := tryAcquire_granted pid filp hfree
  have howner : (takeTicket s pid).writeOwner = s.d.writeOwner :=
    (forEachOpenFile_ids s.files (s.fds pid) _).2.2
  rw [acquire_granted filp hfiles hfree, hset, hd]
  cases w with
  | true => simp [grant, System.setLocked]
  | false => simp [grant, System.setLocked, howner]

theorem tryAgrees_iff (s : System) (pid : Pid) (filp : Handle) (w : Bool) :
    TryAgrees s pid filp w ↔ ¬ (s.Free w ∧ s.SeesConflict pid w) := by
  rcases acquire_reply s pid filp w with
    ⟨hfiles, hreply⟩ | ⟨hfiles, hbusy, hreply⟩ | ⟨hfiles, hfree, hreply⟩
  · by_cases hfree : s.Free w
    · refine iff_of_false (fun h => ?_) fun h => h ⟨hfree, hfiles⟩
      have hok := h.ok_iff.1 (tryAcquire_granted pid filp hfree).1
      rw [hreply] at hok
      simp at hok
    · refine iff_of_true ⟨?_, fun hok => ?_, fun _ => ?_⟩ fun h => hfree h.1
      · rw [tryAcquire_busy pid filp hfree, hreply]
        simp
      · rw [hreply] at hok
        simp at hok
      · exact tryAcquire_busy pid filp hfree
  · refine iff_of_true ⟨?_, fun hok => ?_, fun _ => ?_⟩ fun h => hbusy h.1
    · rw [tryAcquire_busy pid filp hbusy, hreply]
      simp
    · rw [hreply] at hok
      simp at hok
    · exact tryAcquire_busy pid filp hbusy
  · refine iff_of_true ⟨?_, fun _ => ?_, fun hnot => ?_⟩ fun h => hfiles h.2
    · exact iff_of_true (tryAcquire_granted pid filp hfree).1 hreply
    · exact tryAcquire_same hfiles hfree
    · exact absurd hreply hnot

/-- The attempt succeeds where the request is refused as a deadlock. -/
theorem oneWriter_not_tryAgrees :
    ¬ ∀ s, Reaches step (fun _ _ => True) osprdSetup s →
      ∀ pid filp file, s.deviceDescriptor pid filp = some file →
        TryAgrees s pid filp file.writable := by
  intro hall
  obtain ⟨s, hrun, hfile, htry, hacquire⟩ : ∃ s,
      runEvents step (oneWriter ++ [.openFile 0 true false]) osprdSetup = some s ∧
      (∃ file, s.deviceDescriptor 0 0 = some file ∧ file.writable = true) ∧
      (tryAcquire s 0 0 true).log.head? = some (.returned 0 .ok) ∧
      (acquire s 0 0 true).log.head? = some (.returned 0 .edeadlk) :=
    ⟨_, rfl, ⟨_, rfl, rfl⟩, rfl, rfl⟩
  obtain ⟨file, hopen, hwriter⟩ := hfile
  have hagrees := hall s (Reaches.of_runEvents _ .start hrun) 0 0 file hopen
  rw [hwriter] at hagrees
  have hok := hagrees.ok_iff.1 htry
  rw [hacquire] at hok
  simp at hok

end Cs111Labs.Osprd
