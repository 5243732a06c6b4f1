import Cs111Labs.Osprd.Queue

/-!
# Wakeups of the lock queue

`wake_up_all` is called when a lock is given back.  A grant and an interruption
advance `ticket_tail` without a wakeup, which loses one if the process with the
next ticket sleeps and could go.
-/

namespace Cs111Labs.Osprd

open Foundation

variable {s s' : System} {pid other : Pid} {filp : Handle}
  {file : File} {filpWritable : Bool} {ticketCur : Word}

/-- No woken process still has to run. -/
def Quiet (s : System) : Prop :=
  ∀ pid filp filpWritable ticketCur,
    s.place pid ≠ .waiting filp filpWritable ticketCur true ∧
      s.place pid ≠ .scheduled filp filpWritable ticketCur

/-- Whoever sleeps and was not woken has to wait. -/
def SleepersWait (s : System) : Prop :=
  ∀ pid filp filpWritable ticketCur,
    s.place pid = .waiting filp filpWritable ticketCur false →
      condition s.d ticketCur filpWritable = false

/-- A process that was not woken sleeps with this ticket, and these counters
would let it go. -/
def System.SleeperMayGo (s : System) (ticket writeLocks readLocks : Word) : Prop :=
  ∃ pid filp filpWritable, s.place pid = .waiting filp filpWritable ticket false ∧
    writeLocks = 0 ∧ (filpWritable = true → readLocks = 0)

/-- The turn comes to a sleeper that could go, and nothing wakes it: a read lock is
granted, or a writer that waits for readers is interrupted, while the process with
the next ticket sleeps.  The counters are those after the step, modulo 2³². -/
def TurnComesToSleeper : Action → System → Prop
  | .acquire pid filp, s =>
      ∃ file, s.deviceDescriptor pid filp = some file ∧ file.writable = false ∧
        ¬ s.Opens pid true ∧ s.d.ticketHead = s.d.ticketTail ∧
        s.SleeperMayGo (s.d.ticketTail + 1) s.d.writeLocks (s.d.readLocks + 1)
  | .tryAcquire pid filp, s =>
      ∃ file, s.deviceDescriptor pid filp = some file ∧ file.writable = false ∧
        s.d.ticketHead = s.d.ticketTail ∧
        s.SleeperMayGo s.d.ticketTail s.d.writeLocks (s.d.readLocks + 1)
  | .signal pid, s =>
      ∃ filp woken, s.place pid = .waiting filp true s.d.ticketTail woken ∧
        s.d.readLocks ≠ 0 ∧
        s.SleeperMayGo (s.d.ticketTail + 1) s.d.writeLocks s.d.readLocks
  | .proceed pid, s =>
      ∃ filp filpWritable ticketCur,
        s.place pid = .scheduled filp filpWritable ticketCur ∧
        if filpWritable then
          s.SleeperMayGo (s.d.ticketTail + 1) (s.d.writeLocks + 1) s.d.readLocks
        else
          s.SleeperMayGo (s.d.ticketTail + 1) s.d.writeLocks (s.d.readLocks + 1)
  | _, _ => False

namespace SleepersWait

theorem initial : SleepersWait osprdSetup := by
  simp [SleepersWait, osprdSetup]

/-- Nothing that `condition` reads changes for a process that still sleeps. -/
theorem congr (h : SleepersWait s)
    (hplace : ∀ pid filp filpWritable ticketCur,
      s'.place pid = .waiting filp filpWritable ticketCur false →
        s.place pid = .waiting filp filpWritable ticketCur false)
    (hwrite : s'.d.writeLocks = s.d.writeLocks)
    (hread : s'.d.readLocks = s.d.readLocks)
    (htail : s'.d.ticketTail = s.d.ticketTail) : SleepersWait s' := by
  intro pid filp filpWritable ticketCur hsleeps
  have hold := h _ _ _ _ (hplace _ _ _ _ hsleeps)
  rw [Bool.eq_false_iff, Ne, condition_iff] at hold ⊢
  rwa [hwrite, hread, htail]

/-- Everybody was woken. -/
theorem of_wake (hplace : ∀ pid, ∃ place : Place, s'.place pid = place.wake) :
    SleepersWait s' := by
  intro pid filp filpWritable ticketCur hsleeps
  obtain ⟨place, hwoken⟩ := hplace pid
  rw [hwoken] at hsleeps
  cases place <;> simp [Place.wake] at hsleeps

/-- A step that wakes nobody, after which no sleeper may go. -/
theorem of_not_mayGo
    (hplace : ∀ pid filp filpWritable ticketCur,
      s'.place pid = .waiting filp filpWritable ticketCur false →
        s.place pid = .waiting filp filpWritable ticketCur false)
    (hnot : ¬ s.SleeperMayGo s'.d.ticketTail s'.d.writeLocks s'.d.readLocks) :
    SleepersWait s' := by
  intro pid filp filpWritable ticketCur hsleeps
  rw [Bool.eq_false_iff, Ne, condition_iff]
  rintro ⟨hwrite, hread, rfl⟩
  exact hnot ⟨pid, filp, filpWritable, hplace _ _ _ _ hsleeps, hwrite, hread⟩

theorem dropped (h : SleepersWait s) (filp : Handle) : SleepersWait (fput s filp) := by
  unfold fput
  split
  · exact h
  · split
    · exact h
    · split
      · unfold osprdCloseLast
        split
        · exact of_wake fun pid => ⟨s.place pid, rfl⟩
        · split
          · exact of_wake fun pid => ⟨s.place pid, rfl⟩
          · exact h
      · exact h

/-- A process is put at another place, where it does not sleep through its turn. -/
theorem setPlace (h : SleepersWait s) {place : Place}
    (hplace : ∀ filp filpWritable ticketCur,
      place = .waiting filp filpWritable ticketCur false →
        condition s.d ticketCur filpWritable = false) :
    SleepersWait (s.setPlace pid place) := by
  intro other filp filpWritable ticketCur hsleeps
  by_cases hother : other = pid
  · subst hother
    exact hplace _ _ _ (by simpa using hsleeps)
  · exact h other _ _ _ (by simpa [hother] using hsleeps)

theorem acquire (h : SleepersWait s) (filp : Handle) (filpWritable : Bool)
    (hnot : filpWritable = false → ¬ s.Opens pid true →
      s.d.ticketHead = s.d.ticketTail →
        ¬ s.SleeperMayGo (s.d.ticketTail + 1) s.d.writeLocks (s.d.readLocks + 1)) :
    SleepersWait (acquire s pid filp filpWritable) := by
  have htaken : SleepersWait
      ({ s with d := takeTicket s pid }.record
        (.ticketTaken pid filp s.d.ticketHead)) :=
    h.congr (fun _ _ _ _ => id) (by simp) (by simp) (by simp)
  unfold Osprd.acquire
  dsimp only
  split
  · exact htaken
  · rename_i hgoes
    split
    · rename_i hwait
      rw [hasToWait_eq, Bool.not_eq_true'] at hwait
      have hcount : SleepersWait (fget ({ s with d := takeTicket s pid }.record
          (.ticketTaken pid filp s.d.ticketHead)) filp) := htaken
      refine hcount.setPlace ?_
      rintro _ _ _ ⟨⟩
      exact hwait
    · rename_i hnowait
      have hcondition : condition (takeTicket s pid) s.d.ticketHead filpWritable =
          true := by simpa [hasToWait_eq] using hnowait
      obtain ⟨hwrite, hread, hturn⟩ := condition_iff.mp hcondition
      simp only [takeTicket_writeLocks, takeTicket_ticketTail] at hwrite hturn
      cases filpWritable with
      | true =>
          refine of_not_mayGo (s := s) (fun _ _ _ _ => id) ?_
          rintro ⟨_, _, _, -, hzero, -⟩
          simp [grant, hwrite] at hzero
      | false =>
          rw [refusesAsDeadlock_iff] at hgoes
          have hread := hnot rfl (fun hopen => hgoes (.inl hopen)) hturn
          refine of_not_mayGo (s := s) (fun _ _ _ _ => id) ?_
          simpa [grant] using hread

theorem tryAcquire (h : SleepersWait s) (filp : Handle) (filpWritable : Bool)
    (hnot : filpWritable = false → s.d.ticketHead = s.d.ticketTail →
        ¬ s.SleeperMayGo s.d.ticketTail s.d.writeLocks (s.d.readLocks + 1)) :
    SleepersWait (tryAcquire s pid filp filpWritable) := by
  unfold Osprd.tryAcquire
  cases filpWritable with
  | true =>
      split <;> rename_i hfree
      · split
        · exact h
        · rename_i hgranted
          refine of_not_mayGo (s := s) (fun _ _ _ _ => id) ?_
          rintro ⟨_, _, _, -, hzero, -⟩
          simp only [not_or, pos_iff, ne_eq, not_not] at hgranted
          simp [hgranted.1] at hzero
      · exact absurd rfl hfree
  | false =>
      split <;> rename_i hfree
      · simp at hfree
      · split
        · exact h
        · rename_i hgranted
          simp only [not_or, ne_eq, not_not] at hgranted
          exact of_not_mayGo (s := s) (fun _ _ _ _ => id) (hnot rfl hgranted.2)

theorem release (h : SleepersWait s) (filp : Handle) (file : File) :
    SleepersWait (release s pid filp file) := by
  unfold Osprd.release
  split
  · exact h
  · exact of_wake fun other => ⟨s.place other, rfl⟩

theorem proceed
    (hnot : if filpWritable then
        ¬ s.SleeperMayGo (s.d.ticketTail + 1) (s.d.writeLocks + 1) s.d.readLocks
      else
        ¬ s.SleeperMayGo (s.d.ticketTail + 1) s.d.writeLocks (s.d.readLocks + 1)) :
    SleepersWait (fput ((grant s pid filp filpWritable ticketCur).setPlace pid
      .outside) filp) := by
  have hgranted : SleepersWait (grant s pid filp filpWritable ticketCur) := by
    refine of_not_mayGo (s := s) (fun _ _ _ _ => id) ?_
    cases filpWritable <;> exact hnot
  exact (hgranted.setPlace (by simp)).dropped filp

theorem interrupt (h : SleepersWait s) {woken : Bool}
    (hplace : s.place pid = .waiting filp filpWritable ticketCur woken)
    (hwaits : condition s.d ticketCur filpWritable = false)
    (hnot : ¬ TurnComesToSleeper (.signal pid) s) :
    SleepersWait (interrupt s pid filp ticketCur) := by
  dsimp only [Osprd.interrupt]
  split
  · rename_i hturn
    subst hturn
    have hpassed : SleepersWait
        { s with d := { s.d with ticketTail := s.d.ticketTail + 1 } } := by
      refine of_not_mayGo (s := s) (fun _ _ _ _ => id) fun hgo => ?_
      obtain ⟨_, _, _, _, hwrite, _⟩ := id hgo
      -- The interrupted request is one for a write lock, and there are readers.
      rw [Bool.eq_false_iff, Ne, condition_iff] at hwaits
      cases filpWritable with
      | false => exact hwaits ⟨hwrite, by simp, rfl⟩
      | true =>
          refine hnot ⟨filp, woken, hplace, fun hread => ?_, hgo⟩
          exact hwaits ⟨hwrite, fun _ => hread, rfl⟩
    exact (hpassed.setPlace (by simp)).dropped filp
  · exact SleepersWait.dropped (h.setPlace (by simp)) filp

theorem step (h : SleepersWait s) {action : Action}
    (hnot : ¬ TurnComesToSleeper action s) (hstep : step action s = some s') :
    SleepersWait s' := by
  cases action with
  | openFile pid onDevice writable =>
      simp only [Osprd.step] at hstep
      split at hstep
      · exact Option.some.inj hstep ▸ h
      · simp at hstep
  | share owner pid filp =>
      obtain ⟨file, -, rfl⟩ := Option.map_eq_some_iff.mp hstep
      exact h
  | close pid filp =>
      obtain ⟨file, -, rfl⟩ := Option.map_eq_some_iff.mp hstep
      exact dropped (s := { s with
        fds := Function.update s.fds pid ((s.fds pid).erase filp) }) h filp
  | acquire pid filp =>
      obtain ⟨file, hfile, rfl⟩ := Option.map_eq_some_iff.mp hstep
      exact h.acquire filp file.writable fun hreader hopen hturn hgo =>
        hnot ⟨file, hfile, hreader, hopen, hturn, hgo⟩
  | tryAcquire pid filp =>
      obtain ⟨file, hfile, rfl⟩ := Option.map_eq_some_iff.mp hstep
      exact h.tryAcquire filp file.writable fun hreader hturn hgo =>
        hnot ⟨file, hfile, hreader, hturn, hgo⟩
  | release pid filp =>
      obtain ⟨file, -, rfl⟩ := Option.map_eq_some_iff.mp hstep
      exact h.release filp file
  | resume pid =>
      simp only [Osprd.step] at hstep
      split at hstep
      · split at hstep
        · exact Option.some.inj hstep ▸ h.setPlace (by simp)
        · rename_i hcondition
          refine Option.some.inj hstep ▸ h.setPlace ?_
          rintro _ _ _ ⟨⟩
          simpa using hcondition
      · simp at hstep
  | signal pid =>
      simp only [Osprd.step] at hstep
      split at hstep
      · rename_i filp filpWritable ticketCur woken hplace
        split at hstep
        · exact Option.some.inj hstep ▸ h.setPlace (by simp)
        · rename_i hcondition
          exact Option.some.inj hstep ▸
            h.interrupt hplace (by simpa using hcondition) hnot
      · simp at hstep
  | proceed pid =>
      simp only [Osprd.step] at hstep
      split at hstep
      · rename_i filp filpWritable ticketCur hplace
        refine Option.some.inj hstep ▸ SleepersWait.proceed ?_
        cases filpWritable with
        | true => exact fun hgo => hnot ⟨filp, true, ticketCur, hplace, hgo⟩
        | false => exact fun hgo => hnot ⟨filp, false, ticketCur, hplace, hgo⟩
      · simp at hstep

end SleepersWait

theorem sleepersWait_of_reaches
    (h : Reaches step (fun action s => ¬ TurnComesToSleeper action s)
      osprdSetup s) : SleepersWait s :=
  h.invariant .initial fun _ _ _ hinv hnot hstep => hinv.step hnot hstep

/-- In a quiet state nobody who sleeps could go. -/
def NoLostWakeup (s : System) : Prop :=
  Quiet s → SleepersWait s

theorem noLostWakeup_of_not_turnComesToSleeper
    (h : Reaches step (fun action s => ¬ TurnComesToSleeper action s)
      osprdSetup s) : NoLostWakeup s :=
  fun _ => sleepersWait_of_reaches h

theorem noLostWakeup_of_not_turnComesToSleeper_blocked :
    ∃ s, runEvents step [.openFile 0 true true, .openFile 1 true true,
        .acquire 0 0, .acquire 1 1] osprdSetup = some s ∧
      s.place 1 = .waiting 1 true 1 false ∧ NoLostWakeup s := by
  refine ⟨_, rfl, rfl, noLostWakeup_of_not_turnComesToSleeper
    ((((Reaches.start.next (.openFile 0 true true) (by simp [TurnComesToSleeper])
      rfl).next (.openFile 1 true true) (by simp [TurnComesToSleeper]) rfl).next
        (.acquire 0 0) ?_ rfl).next (.acquire 1 1) ?_ rfl)⟩ <;>
  · rintro ⟨file, hfile, hreader, -⟩
    obtain rfl := Option.some.inj hfile
    simp at hreader

/-- Two readers wait for a writer; the second one looks before the first one has
the lock. -/
def readersBehindWriter : List Action :=
  [.openFile 0 true true, .openFile 1 true false, .openFile 2 true false,
    .acquire 0 0, .acquire 1 1, .acquire 2 2, .release 0 0, .resume 2,
    .resume 1, .proceed 1]

theorem readersBehindWriter_not_noLostWakeup :
    ¬ ∀ s, Reaches step (fun _ _ => True) osprdSetup s → NoLostWakeup s := by
  intro hall
  obtain ⟨s, hrun, hquiet, hsleeps, hcondition⟩ : ∃ s,
      runEvents step readersBehindWriter osprdSetup = some s ∧ Quiet s ∧
      s.place 2 = .waiting 2 false 2 false ∧ condition s.d 2 false = true := by
    refine ⟨_, rfl, ?_, rfl, by decide⟩
    rintro (_ | _ | _ | pid) filp filpWritable ticketCur
    all_goals exact ⟨by rintro ⟨⟩, by rintro ⟨⟩⟩
  have hwaits := hall s (Reaches.of_runEvents _ .start hrun) hquiet 2 _ _ _ hsleeps
  exact absurd (hwaits.symm.trans hcondition) (by decide)

end Cs111Labs.Osprd
