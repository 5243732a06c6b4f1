import Cs111Labs.Osprd.Queue

/-!
# Requests that wait for their own process

A request waits for a lock of the caller if the modes conflict, or if it queues
behind a call that waits for that lock.  The test for a deadlock looks at the
modes of the open files and at one owner, not at the queue.
-/

namespace Cs111Labs.Osprd

open Foundation

variable {s : System} {pid : Pid} {filp : Handle} {file : File} {filpWritable : Bool}

/-- One of the open files of the process holds the lock in this mode. -/
def System.OwnsLock (s : System) (pid : Pid) (mode : Bool) : Prop :=
  ∃ filp ∈ s.fds pid, s.lockMode filp = some mode

/-- A blocked call, which is ahead of every new request, waits for this mode. -/
def System.AwaitsMode (s : System) (filpWritable : Bool) : Prop :=
  ∃ pid filp ticketCur woken,
    s.place pid = .waiting filp filpWritable ticketCur woken

/-- Two readers can hold the lock together. -/
def Conflicts (filpWritable mode : Bool) : Prop :=
  filpWritable = true ∨ mode = true

/-- A new request of the process waits for a lock that the process holds. -/
def System.BlocksItself (s : System) (pid : Pid) (filpWritable : Bool) : Prop :=
  ∃ mode, s.OwnsLock pid mode ∧ (Conflicts filpWritable mode ∨
    ∃ ahead, s.AwaitsMode ahead ∧ Conflicts ahead mode)

/-- The call does not put its process to sleep and returns `-EDEADLK`. -/
def ReturnsDeadlock (s : System) (pid : Pid) (filp : Handle) (filpWritable : Bool) :
    Prop :=
  (acquire s pid filp filpWritable).place pid = .outside ∧
    (acquire s pid filp filpWritable).log.head? = some (.returned pid .edeadlk)

/-- A read request of a reader behind a writer, or a write request under a write
lock that the process has but did not take itself. -/
def System.MissesDeadlock (s : System) (pid : Pid) (filpWritable : Bool) : Prop :=
  if filpWritable then
    s.OwnsLock pid true ∧ ¬ s.Opens pid false ∧ (pid : Int) ≠ s.d.writeOwner
  else s.OwnsLock pid false ∧ ¬ s.Opens pid true ∧ s.AwaitsMode true

theorem System.OwnsLock.opens {mode : Bool} (h : s.OwnsLock pid mode) :
    s.Opens pid mode := by
  obtain ⟨filp, hfd, hmode⟩ := h
  obtain ⟨file, hfile, hlocked⟩ := Option.bind_eq_some_iff.mp hmode
  refine ⟨filp, hfd, file, hfile, ?_⟩
  unfold File.lockMode at hlocked
  split at hlocked
  · exact Option.some.inj hlocked
  · simp at hlocked

/-- The reply is `-EDEADLK` exactly if the test says so. -/
theorem returnsDeadlock_iff (hidle : s.place pid = .outside) :
    ReturnsDeadlock s pid filp filpWritable ↔ s.Opens pid (!filpWritable) ∨
      filpWritable = true ∧ (pid : Int) = s.d.writeOwner := by
  rw [← refusesAsDeadlock_iff]
  unfold ReturnsDeadlock acquire
  dsimp only
  constructor
  · rintro ⟨-, hreply⟩
    by_contra hgoes
    rw [if_neg hgoes] at hreply
    split at hreply
    · simp at hreply
    · simp [grant] at hreply
  · intro hrefused
    rw [if_pos hrefused]
    exact ⟨hidle, rfl⟩

/-- Which requests that would wait for themselves the test finds. -/
theorem blocksItself_iff (w : Bool) :
    s.BlocksItself pid w ∧ ¬ (s.Opens pid (!w) ∨
      w = true ∧ (pid : Int) = s.d.writeOwner) ↔ s.MissesDeadlock pid w := by
  cases w with
  | true =>
      simp only [System.MissesDeadlock, if_true, Bool.not_true, true_and, not_or]
      constructor
      · rintro ⟨⟨mode, howns, -⟩, hopens, howner⟩
        cases mode with
        | true => exact ⟨howns, hopens, howner⟩
        | false => exact absurd howns.opens hopens
      · rintro ⟨howns, hopens, howner⟩
        exact ⟨⟨true, howns, .inl (.inl rfl)⟩, hopens, howner⟩
  | false =>
      simp only [System.MissesDeadlock, Bool.false_eq_true, if_false, Bool.not_false,
        false_and, or_false]
      constructor
      · rintro ⟨⟨mode, howns, hconflict⟩, hopens⟩
        cases mode with
        | true => exact absurd howns.opens hopens
        | false =>
            rcases hconflict with (hw | hm) | ⟨ahead, hawaits, rfl | hm⟩
            · simp at hw
            · simp at hm
            · exact ⟨howns, hopens, hawaits⟩
            · simp at hm
      · rintro ⟨howns, hopens, hawaits⟩
        exact ⟨⟨false, howns, .inr ⟨true, hawaits, .inl rfl⟩⟩, hopens⟩

theorem returnsDeadlock_of_blocksItself_iff
    (hfile : s.deviceDescriptor pid filp = some file) :
    (s.BlocksItself pid file.writable →
      ReturnsDeadlock s pid filp file.writable) ↔
        ¬ s.MissesDeadlock pid file.writable := by
  obtain ⟨hidle, -⟩ := deviceDescriptor_eq_some hfile
  rw [returnsDeadlock_iff hidle, ← blocksItself_iff]
  tauto

theorem returnsDeadlock_of_blocksItself_iff_writer :
    ∃ s file, runEvents step [.openFile 0 true true, .acquire 0 0] osprdSetup = some s ∧
      s.deviceDescriptor 0 0 = some file ∧
      ((s.BlocksItself 0 file.writable → ReturnsDeadlock s 0 0 file.writable) ↔
        ¬ s.MissesDeadlock 0 file.writable) :=
  ⟨_, _, rfl, rfl, returnsDeadlock_of_blocksItself_iff rfl⟩

/-- A reader holds the lock and a writer waits for it. -/
def writerBehindReader : List Action :=
  [.openFile 0 true false, .openFile 1 true true, .acquire 0 0, .acquire 1 1]

theorem writerBehindReader_not_returnsDeadlock :
    ¬ ∀ s, Reaches step (fun _ _ => True) osprdSetup s →
      ∀ pid filp file, s.deviceDescriptor pid filp = some file →
        s.BlocksItself pid file.writable →
          ReturnsDeadlock s pid filp file.writable := by
  intro hall
  obtain ⟨s, hrun, hfile, hfds, hmode, hplace, hsleeps⟩ : ∃ s,
      runEvents step writerBehindReader osprdSetup = some s ∧
      (∃ file, s.deviceDescriptor 0 0 = some file ∧ file.writable = false) ∧
      0 ∈ s.fds 0 ∧ s.lockMode 0 = some false ∧
      s.place 1 = .waiting 1 true 1 false ∧
      (acquire s 0 0 false).place 0 = .waiting 0 false 2 false :=
    ⟨_, rfl, ⟨_, rfl, rfl⟩, by decide, rfl, rfl, rfl⟩
  obtain ⟨file, hopen, hreader⟩ := hfile
  have hreturns := hall s (Reaches.of_runEvents _ .start hrun) 0 0 file hopen
  rw [hreader] at hreturns
  have hblocks : s.BlocksItself 0 false :=
    ⟨false, ⟨0, hfds, hmode⟩, .inr ⟨true, ⟨1, 1, 1, false, hplace⟩, .inl rfl⟩⟩
  simp [(hreturns hblocks).1] at hsleeps

end Cs111Labs.Osprd
