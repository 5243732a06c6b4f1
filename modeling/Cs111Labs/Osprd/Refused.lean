import Cs111Labs.Osprd.SelfBlock

/-!
# Requests refused as a deadlock

The ticket is drawn before the test for a deadlock, and the return with
`-EDEADLK` is the only one that does not account for it.
-/

namespace Cs111Labs.Osprd

open Foundation

variable {s : System} {pid : Pid} {filp : Handle} {file : File} {filpWritable : Bool}

/-- The tickets that were drawn and that `ticket_tail` has not passed. -/
def Device.tickets (d : Device) : Set Word :=
  {ticket | (ticket - d.ticketTail).toNat < d.outstanding}

theorem mem_tickets {d : Device} {ticket : Word} :
    ticket ∈ d.tickets ↔ (ticket - d.ticketTail).toNat < d.outstanding :=
  Iff.rfl

/-- What later requests on a handle depend on. -/
structure LockState where
  readLocks : Word
  writeLocks : Word
  writeOwner : Int
  tickets : Set Word
  next : Word
  locked : Option Bool

def System.lockState (s : System) (filp : Handle) : LockState where
  readLocks := s.d.readLocks
  writeLocks := s.d.writeLocks
  writeOwner := s.d.writeOwner
  tickets := s.d.tickets
  next := s.d.ticketTail
  locked := (s.files filp).map (·.locked)

/-- A set of tickets in a row tells how many they are. -/
theorem outstanding_eq_of_tickets {d d' : Device}
    (htail : d'.ticketTail = d.ticketTail) (h : d'.tickets = d.tickets) :
    d'.outstanding = d.outstanding := by
  have hmem : ∀ n < 2 ^ 32, n < d'.outstanding ↔ n < d.outstanding := by
    intro n hn
    have hnumber : (d.ticketTail + BitVec.ofNat 32 n - d.ticketTail).toNat = n := by
      bv_omega
    have hboth := Set.ext_iff.mp h (d.ticketTail + BitVec.ofNat 32 n)
    rwa [mem_tickets, mem_tickets, htail, hnumber] at hboth
  have hlt : d.outstanding < 2 ^ 32 := BitVec.isLt _
  have hlt' : d'.outstanding < 2 ^ 32 := BitVec.isLt _
  have hnot := (hmem _ hlt).not.mpr (lt_irrefl _)
  have hnot' := (hmem _ hlt').not.mp (lt_irrefl _)
  omega

/-- The refused call leaves everything but the next ticket as it was. -/
theorem acquire_of_refused (filp : Handle) (w : Bool)
    (hrefused : refusesAsDeadlock (takeTicket s pid) pid w = true) :
    (acquire s pid filp w).d = takeTicket s pid ∧
      (acquire s pid filp w).files = s.files ∧
      (acquire s pid filp w).place = s.place ∧
      (acquire s pid filp w).fds = s.fds := by
  unfold acquire
  dsimp only
  rw [if_pos hrefused]
  exact ⟨rfl, rfl, rfl, rfl⟩

/-- One more ticket is outstanding, and no call has it. -/
theorem outstanding_takeTicket (s : System) (pid : Pid) :
    (takeTicket s pid).outstanding ≠ s.d.outstanding := by
  unfold Device.outstanding
  rw [takeTicket_ticketHead, takeTicket_ticketTail]
  intro h
  have heq := BitVec.eq_of_toNat_eq h
  bv_omega

/-- The reply `-EDEADLK` is given on one path only. -/
theorem refused_of_edeadlk (w : Bool)
    (hreply : (acquire s pid filp w).log.head? = some (.returned pid .edeadlk)) :
    refusesAsDeadlock (takeTicket s pid) pid w = true := by
  by_contra hgoes
  unfold acquire at hreply
  dsimp only at hreply
  rw [if_neg hgoes] at hreply
  split at hreply
  · simp at hreply
  · simp [grant] at hreply

/-- Where no ticket was outstanding, `OSPRDIOCTRYACQUIRE` is refused to
everybody after such a call. -/
theorem tryAcquire_after_refused (w : Bool)
    (hfree : s.d.ticketHead = s.d.ticketTail)
    (hrefused : refusesAsDeadlock (takeTicket s pid) pid w = true)
    (pid' : Pid) (filp' : Handle) (w' : Bool) :
    (tryAcquire (acquire s pid filp w) pid' filp' w').log.head? =
      some (.returned pid' .ebusy) := by
  obtain ⟨hd, -, -, -⟩ := acquire_of_refused filp w hrefused
  have hne : (acquire s pid filp w).d.ticketHead ≠
      (acquire s pid filp w).d.ticketTail := by
    rw [hd, takeTicket_ticketHead, takeTicket_ticketTail, hfree]
    simp
  unfold tryAcquire
  cases w' with
  | true => rw [if_pos rfl, if_pos (.inr (.inr hne))]; rfl
  | false => rw [if_neg (by simp), if_pos (.inr hne)]; rfl

/-- The lock is never left as it was. -/
theorem edeadlk_changes_lockState {s' : System}
    (hstep : step (.acquire pid filp) s = some s')
    (hreply : s'.log.head? = some (.returned pid .edeadlk)) :
    s'.lockState filp ≠ s.lockState filp := by
  obtain ⟨file, -, rfl⟩ := Option.map_eq_some_iff.mp hstep
  obtain ⟨hd, -⟩ := acquire_of_refused filp file.writable
    (refused_of_edeadlk file.writable hreply)
  intro heq
  have htickets : (acquire s pid filp file.writable).d.tickets = s.d.tickets :=
    congrArg LockState.tickets heq
  rw [hd] at htickets
  exact outstanding_takeTicket s pid
    (outstanding_eq_of_tickets takeTicket_ticketTail htickets)

/-- A process that has the device open in both modes asks for the lock. -/
def readerWithWriter : List Action :=
  [.openFile 0 true true, .openFile 0 true false]

theorem edeadlk_changes_lockState_readerWithWriter :
    ∃ s s', runEvents step readerWithWriter osprdSetup = some s ∧
      step (.acquire 0 1) s = some s' ∧
      s'.log.head? = some (.returned 0 .edeadlk) ∧
      s'.lockState 1 ≠ s.lockState 1 :=
  ⟨_, _, rfl, rfl, rfl, edeadlk_changes_lockState rfl rfl⟩

theorem readerWithWriter_changes_lockState :
    ¬ ∀ s s' pid filp, Reaches step (fun _ _ => True) osprdSetup s →
      step (.acquire pid filp) s = some s' →
      s'.log.head? = some (.returned pid .edeadlk) →
        s'.lockState filp = s.lockState filp := by
  intro hall
  obtain ⟨s, s', hrun, hstep, hreply, hmem, hnot⟩ : ∃ s s',
      runEvents step readerWithWriter osprdSetup = some s ∧
      step (.acquire 0 1) s = some s' ∧
      s'.log.head? = some (.returned 0 .edeadlk) ∧
      (s'.d.ticketTail - s'.d.ticketTail).toNat < s'.d.outstanding ∧
      ¬ (s'.d.ticketTail - s.d.ticketTail).toNat < s.d.outstanding :=
    ⟨_, _, rfl, rfl, rfl, by decide, by decide⟩
  have hsame := hall s s' 0 1 (Reaches.of_runEvents _ .start hrun) hstep hreply
  have htickets : s'.d.tickets = s.d.tickets := congrArg LockState.tickets hsame
  exact hnot ((Set.ext_iff.mp htickets s'.d.ticketTail).mp hmem)

end Cs111Labs.Osprd
