import Cs111Labs.Foundation.Tickets
import Cs111Labs.Osprd.Exclusion

/-!
# The ticket queue of a ramdisk

`ticket_head` and `ticket_tail` count tickets modulo 2³².  As long as fewer than
2³² tickets are outstanding they stand for a queue of numbered tickets, in which
the holders are the blocked calls.
-/

namespace Cs111Labs.Osprd

open Foundation

variable {s s' : System} {pid other : Pid} {filp : Handle}
  {file : File} {filpWritable : Bool} {ticketCur : Word} {q : TicketQueue Pid}

/-! ## The history of the tickets -/

/-- The number of tickets taken so far, and so the number of the next one. -/
def takenTickets : List Entry → Nat
  | [] => 0
  | .ticketTaken _ _ _ :: older => takenTickets older + 1
  | _ :: older => takenTickets older

/-- The number of the last ticket that the process took. -/
def lastTicket (pid : Pid) : List Entry → Option Nat
  | [] => none
  | .ticketTaken other _ _ :: older =>
      if other = pid then some (takenTickets older) else lastTicket pid older
  | _ :: older => lastTicket pid older

/-- The tickets of the `OSPRDIOCACQUIRE` calls that were granted. -/
def grantedTickets : List Entry → List (Option Nat)
  | [] => []
  | .granted pid _ (some _) :: older => lastTicket pid older :: grantedTickets older
  | _ :: older => grantedTickets older

def Entry.isTicket : Entry → Bool
  | .ticketTaken _ _ _ => true
  | .granted _ _ ticketCur => ticketCur.isSome
  | _ => false

theorem takenTickets_filter (log : List Entry) :
    takenTickets (log.filter Entry.isTicket) = takenTickets log := by
  induction log with
  | nil => rfl
  | cons entry log ih =>
      rcases entry with _ | ⟨_, _, _ | _⟩ | _ | _ | _ <;>
        simp [List.filter_cons, Entry.isTicket, takenTickets, ih]

theorem lastTicket_filter (pid : Pid) (log : List Entry) :
    lastTicket pid (log.filter Entry.isTicket) = lastTicket pid log := by
  induction log with
  | nil => rfl
  | cons entry log ih =>
      rcases entry with _ | ⟨_, _, _ | _⟩ | _ | _ | _ <;>
        simp [List.filter_cons, Entry.isTicket, lastTicket, takenTickets_filter, ih]

theorem grantedTickets_filter (log : List Entry) :
    grantedTickets (log.filter Entry.isTicket) = grantedTickets log := by
  induction log with
  | nil => rfl
  | cons entry log ih =>
      rcases entry with _ | ⟨_, _, _ | _⟩ | _ | _ | _ <;>
        simp [List.filter_cons, Entry.isTicket, grantedTickets, lastTicket_filter, ih]

/-- The tickets of two histories with the same entries about tickets. -/
theorem tickets_of_filter {log log' : List Entry}
    (h : log'.filter Entry.isTicket = log.filter Entry.isTicket) :
    takenTickets log' = takenTickets log ∧
      (∀ pid, lastTicket pid log' = lastTicket pid log) ∧
      grantedTickets log' = grantedTickets log := by
  refine ⟨?_, fun pid => ?_, ?_⟩
  · rw [← takenTickets_filter, h, takenTickets_filter]
  · rw [← lastTicket_filter, h, lastTicket_filter]
  · rw [← grantedTickets_filter, h, grantedTickets_filter]

/-! ## The queue -/

def Place.ticket (place : Place) : Option Word := place.call.map (·.2.2)

/-- The number of tickets that were taken and that `ticket_tail` has not passed. -/
def Device.outstanding (d : Device) : Nat := (d.ticketHead - d.ticketTail).toNat

/-- Fewer than 2³² tickets are outstanding, also after this step. -/
def RoomForTicket (action : Action) (s : System) : Prop :=
  ∀ pid filp, action = .acquire pid filp → s.d.outstanding + 1 < 2 ^ 32

/-- The counters, blocked calls and history stand for `q`. -/
structure Queued (s : System) (q : TicketQueue Pid) : Prop where
  head : s.d.ticketHead = BitVec.ofNat 32 q.head
  tail : s.d.ticketTail = BitVec.ofNat 32 q.tail
  room : q.head < q.tail + 2 ^ 32
  taken : takenTickets s.log = q.head
  served : grantedTickets s.log = q.served.map some
  ticket : ∀ pid, (s.place pid).ticket = (q.ticket pid).map (BitVec.ofNat 32)
  last : ∀ pid k, q.ticket pid = some k → lastTicket pid s.log = some k
  scheduled : ∀ pid filp filpWritable ticketCur,
    s.place pid = .scheduled filp filpWritable ticketCur →
      ticketCur = s.d.ticketTail

theorem eq_of_ofNat_eq {k l : Nat} (hle : k ≤ l) (hlt : l < k + 2 ^ 32)
    (h : BitVec.ofNat 32 l = BitVec.ofNat 32 k) : l = k := by
  have hmod := congrArg BitVec.toNat h
  simp only [BitVec.toNat_ofNat] at hmod
  omega

theorem Place.ticket_of_call {place : Place}
    (h : place.call = some (filp, filpWritable, ticketCur)) :
    place.ticket = some ticketCur := by
  simp [Place.ticket, h]

namespace Queued

theorem initial : Queued osprdSetup .empty where
  head := rfl
  tail := rfl
  room := by simp [TicketQueue.empty]
  taken := rfl
  served := rfl
  ticket := fun _ => rfl
  last := by simp [TicketQueue.empty]
  scheduled := by simp [osprdSetup]

theorem outstanding_eq (h : Queued s q) : s.d.outstanding = q.head - q.tail := by
  have hroom := h.room
  have hle := q.tail_le
  simp only [Device.outstanding, h.head, h.tail, BitVec.toNat_sub, BitVec.toNat_ofNat]
  omega

/-- The number behind the ticket of a blocked call. -/
theorem number (h : Queued s q)
    (hcall : (s.place pid).call = some (filp, filpWritable, ticketCur)) :
    ∃ k, q.ticket pid = some k ∧ ticketCur = BitVec.ofNat 32 k := by
  have hticket := h.ticket pid
  rw [Place.ticket_of_call hcall] at hticket
  obtain ⟨k, hk, heq⟩ := Option.map_eq_some_iff.mp hticket.symm
  exact ⟨k, hk, heq.symm⟩

theorem ticket_eq_none (h : Queued s q) (hidle : s.place pid = .outside) :
    q.ticket pid = none := by
  simpa [hidle, Place.ticket] using h.ticket pid

/-- The call whose ticket is `ticket_tail` holds the oldest ticket. -/
theorem ticket_eq_tail (h : Queued s q)
    (hcall : (s.place pid).call = some (filp, filpWritable, ticketCur))
    (hturn : ticketCur = s.d.ticketTail) : q.ticket pid = some q.tail := by
  obtain ⟨k, hk, rfl⟩ := h.number hcall
  obtain ⟨htail, hhead⟩ := q.bounds pid k hk
  have hroom := h.room
  have heq : k = q.tail :=
    eq_of_ofNat_eq htail (by omega) (hturn.trans h.tail)
  exact heq ▸ hk

theorem turn_of_ticket (h : Queued s q)
    (hcall : (s.place pid).call = some (filp, filpWritable, ticketCur))
    (hticket : q.ticket pid = some q.tail) : ticketCur = s.d.ticketTail := by
  obtain ⟨k, hk, rfl⟩ := h.number hcall
  obtain rfl : q.tail = k := Option.some.inj (hticket.symm.trans hk)
  exact h.tail.symm

/-- A blocked call whose ticket is not past is between tail and head. -/
theorem between (h : Queued s q)
    (hcall : (s.place pid).call = some (filp, filpWritable, ticketCur)) :
    ticketCur - s.d.ticketTail < s.d.ticketHead - s.d.ticketTail := by
  obtain ⟨k, hk, rfl⟩ := h.number hcall
  obtain ⟨htail, hhead⟩ := q.bounds pid k hk
  have hroom := h.room
  rw [BitVec.lt_def, h.head, h.tail, BitVec.toNat_sub, BitVec.toNat_sub]
  simp only [BitVec.toNat_ofNat]
  omega

theorem congr (h : Queued s q) (hhead : s'.d.ticketHead = s.d.ticketHead)
    (htail : s'.d.ticketTail = s.d.ticketTail)
    (hcall : ∀ pid, (s'.place pid).call = (s.place pid).call)
    (hscheduled : ∀ pid filp filpWritable ticketCur,
      s'.place pid = .scheduled filp filpWritable ticketCur →
        ticketCur = s'.d.ticketTail)
    (hlog : s'.log.filter Entry.isTicket = s.log.filter Entry.isTicket) :
    Queued s' q where
  head := hhead.trans h.head
  tail := htail.trans h.tail
  room := h.room
  taken := (tickets_of_filter hlog).1.trans h.taken
  served := (tickets_of_filter hlog).2.2.trans h.served
  ticket pid := by
    rw [Place.ticket, hcall]
    exact h.ticket pid
  last pid k hk := ((tickets_of_filter hlog).2.1 pid).trans (h.last pid k hk)
  scheduled := hscheduled

/-- Nobody else is past its wait when it is the turn of `pid`. -/
theorem eq_of_scheduled (h : Queued s q) (hticket : q.ticket pid = some q.tail)
    (hplace : s.place other = .scheduled filp filpWritable ticketCur) :
    other = pid := by
  have hturn := h.scheduled _ _ _ _ hplace
  have hother := h.ticket_eq_tail (Place.call_of_scheduled hplace) hturn
  exact q.injective other pid _ hother hticket

/-- The next ticket is taken and its call blocks. -/
theorem enter (h : Queued s q) (hidle : s.place pid = .outside)
    (hroom : s.d.outstanding + 1 < 2 ^ 32)
    (hhead : s'.d.ticketHead = s.d.ticketHead + 1)
    (htail : s'.d.ticketTail = s.d.ticketTail)
    (hlog : s'.log.filter Entry.isTicket =
      .ticketTaken pid filp s.d.ticketHead :: s.log.filter Entry.isTicket)
    (hcall : ∀ other, other ≠ pid → s'.place other = s.place other)
    (hplace : (s'.place pid).ticket = some s.d.ticketHead)
    (hwaits : ∀ filp filpWritable ticketCur,
      s'.place pid ≠ .scheduled filp filpWritable ticketCur) :
    Queued s' (q.enter pid) where
  head := by
    rw [hhead, h.head]
    exact (BitVec.ofNat_add q.head 1).symm
  tail := htail.trans h.tail
  room := by
    rw [h.outstanding_eq] at hroom
    simp only [TicketQueue.enter]
    omega
  taken := by
    rw [← takenTickets_filter, hlog, takenTickets, takenTickets_filter, h.taken]
    rfl
  served := by
    rw [← grantedTickets_filter, hlog]
    exact (grantedTickets_filter s.log).trans h.served
  ticket other := by
    by_cases hother : other = pid
    · subst hother
      simp [hplace, TicketQueue.enter, h.head]
    · simpa [hcall other hother, TicketQueue.enter, hother] using h.ticket other
  last other k hk := by
    rw [← lastTicket_filter, hlog, lastTicket]
    by_cases hother : other = pid
    · subst hother
      simpa [TicketQueue.enter, takenTickets_filter, h.taken] using hk
    · rw [if_neg (Ne.symm hother), lastTicket_filter]
      exact h.last other k (by simpa [TicketQueue.enter, hother] using hk)
  scheduled other _ _ _ hnew := by
    by_cases hother : other = pid
    · subst hother
      exact absurd hnew (hwaits _ _ _)
    · rw [htail]
      exact h.scheduled other _ _ _ (hcall other hother ▸ hnew)

/-- A ticket is taken and its call returns at once. -/
theorem draw (h : Queued s q) (hidle : s.place pid = .outside)
    (hroom : s.d.outstanding + 1 < 2 ^ 32)
    (hhead : s'.d.ticketHead = s.d.ticketHead + 1)
    (htail : s'.d.ticketTail = s.d.ticketTail)
    (hlog : s'.log.filter Entry.isTicket =
      .ticketTaken pid filp s.d.ticketHead :: s.log.filter Entry.isTicket)
    (hplace : s'.place = s.place) : Queued s' q.draw where
  head := by
    rw [hhead, h.head]
    exact (BitVec.ofNat_add q.head 1).symm
  tail := htail.trans h.tail
  room := by
    rw [h.outstanding_eq] at hroom
    simp only [TicketQueue.draw]
    omega
  taken := by
    rw [← takenTickets_filter, hlog, takenTickets, takenTickets_filter, h.taken]
    rfl
  served := by
    rw [← grantedTickets_filter, hlog]
    exact (grantedTickets_filter s.log).trans h.served
  ticket := hplace ▸ h.ticket
  last other k hk := by
    have hother : pid ≠ other := by
      rintro rfl
      have hnone : q.ticket pid = some k := hk
      simp [h.ticket_eq_none hidle] at hnone
    rw [← lastTicket_filter, hlog, lastTicket, if_neg hother, lastTicket_filter]
    exact h.last other k hk
  scheduled := by
    rw [hplace, htail]
    exact h.scheduled

/-- A blocked call returns.  `passes` says whether `ticket_tail` moves on. -/
theorem retire (h : Queued s q) {q' : TicketQueue Pid} (passes : Bool)
    (hturn : passes = true → q.ticket pid = some q.tail)
    (hqhead : q'.head = q.head)
    (hqtail : q'.tail = if passes then q.tail + 1 else q.tail)
    (hqticket : q'.ticket = Function.update q.ticket pid none)
    (hhead : s'.d.ticketHead = s.d.ticketHead)
    (htail : s'.d.ticketTail =
      if passes then s.d.ticketTail + 1 else s.d.ticketTail)
    (htaken : takenTickets s'.log = takenTickets s.log)
    (hserved : grantedTickets s'.log = q'.served.map some)
    (hlast : ∀ other, lastTicket other s'.log = lastTicket other s.log)
    (hcall : ∀ other, other ≠ pid → (s'.place other).call = (s.place other).call)
    (hscheduled : ∀ other filp filpWritable ticketCur, other ≠ pid →
      s'.place other = .scheduled filp filpWritable ticketCur →
        s.place other = .scheduled filp filpWritable ticketCur)
    (houtside : s'.place pid = .outside) : Queued s' q' where
  head := by rw [hhead, h.head, hqhead]
  tail := by
    rw [htail, hqtail, h.tail]
    cases passes with
    | false => rfl
    | true => exact (BitVec.ofNat_add q.tail 1).symm
  room := by
    have hroom := h.room
    rw [hqhead, hqtail]
    split <;> omega
  taken := by rw [htaken, h.taken, hqhead]
  served := hserved
  ticket other := by
    rw [hqticket]
    by_cases hother : other = pid
    · subst hother
      simp [houtside, Place.ticket]
    · rw [Place.ticket, hcall other hother, Function.update_of_ne hother]
      exact h.ticket other
  last other k hk := by
    rw [hqticket] at hk
    rw [hlast]
    exact h.last other k (TicketQueue.ticket_of_ne hk).2
  scheduled other _ _ _ hnew := by
    by_cases hother : other = pid
    · subst hother
      simp [houtside] at hnew
    · have hold := hscheduled other _ _ _ hother hnew
      cases passes with
      | false => exact (h.scheduled other _ _ _ hold).trans htail.symm
      | true => exact absurd (h.eq_of_scheduled (hturn rfl) hold) hother

end Queued

/-! ## The steps -/

theorem Place.call_eq_none {place : Place} : place.call = none ↔ place = .outside := by
  cases place <;> simp [Place.call]

section Fput

@[simp] theorem fput_ticketHead : (fput s filp).d.ticketHead = s.d.ticketHead := by
  unfold fput
  split <;> [rfl; (split <;> [rfl; (split <;> simp)])]

@[simp] theorem fput_ticketTail : (fput s filp).d.ticketTail = s.d.ticketTail := by
  unfold fput
  split <;> [rfl; (split <;> [rfl; (split <;> simp)])]

@[simp] theorem fput_tickets :
    (fput s filp).log.filter Entry.isTicket = s.log.filter Entry.isTicket := by
  unfold fput
  split <;> [rfl; (split <;> [rfl; (split <;> simp [Entry.isTicket])])]

theorem fput_scheduled {filp' : Handle}
    (h : (fput s filp).place pid = .scheduled filp' filpWritable ticketCur) :
    s.place pid = .scheduled filp' filpWritable ticketCur := by
  unfold fput at h
  split at h
  · exact h
  · split at h
    · exact h
    · split at h
      · exact osprdCloseLast_scheduled h
      · exact h

@[simp] theorem fput_outside :
    (fput s filp).place pid = .outside ↔ s.place pid = .outside := by
  rw [← Place.call_eq_none, fput_call, Place.call_eq_none]

end Fput

section Interrupt

theorem interrupt_tickets (s : System) (pid : Pid) (filp : Handle)
    (ticketCur : Word) :
    (interrupt s pid filp ticketCur).log.filter Entry.isTicket =
      s.log.filter Entry.isTicket := by
  simp [interrupt, Entry.isTicket]

theorem interrupt_ticketTail (s : System) (pid : Pid) (filp : Handle)
    (ticketCur : Word) :
    (interrupt s pid filp ticketCur).d.ticketTail =
      if ticketCur = s.d.ticketTail then s.d.ticketTail + 1
      else s.d.ticketTail := by
  simp only [interrupt, record_d, fput_ticketTail, setPlace_d]
  split <;> rfl

@[simp] theorem interrupt_ticketHead :
    (interrupt s pid filp ticketCur).d.ticketHead = s.d.ticketHead := by
  simp only [interrupt, record_d, fput_ticketHead, setPlace_d]
  split <;> rfl

theorem interrupt_call (hother : other ≠ pid) :
    ((interrupt s pid filp ticketCur).place other).call =
      (s.place other).call := by
  simp [interrupt, hother]

theorem interrupt_scheduled {filp' : Handle} {ticketCur' : Word}
    (hother : other ≠ pid)
    (h : (interrupt s pid filp ticketCur).place other =
      .scheduled filp' filpWritable ticketCur') :
    s.place other = .scheduled filp' filpWritable ticketCur' := by
  simpa [hother] using fput_scheduled h

theorem interrupt_outside :
    (interrupt s pid filp ticketCur).place pid = .outside := by
  simp [interrupt]

end Interrupt

/-- The process has a file open for writing, or one that is not. -/
def System.Opens (s : System) (pid : Pid) (writable : Bool) : Prop :=
  ∃ filp ∈ s.fds pid, ∃ file, s.files filp = some file ∧ file.writable = writable

theorem forEachOpenFile_ids (files : Handle → Option File) (fds : List Handle)
    (d : Device) :
    ((forEachOpenFile files fds d).readIds ≠ 0 ↔ d.readIds ≠ 0 ∨
      ∃ filp ∈ fds, ∃ file, files filp = some file ∧ file.writable = false) ∧
    ((forEachOpenFile files fds d).writeIds ≠ 0 ↔ d.writeIds ≠ 0 ∨
      ∃ filp ∈ fds, ∃ file, files filp = some file ∧ file.writable = true) ∧
    (forEachOpenFile files fds d).writeOwner = d.writeOwner := by
  induction fds generalizing d with
  | nil => simp [forEachOpenFile]
  | cons filp fds ih =>
      cases hfile : files filp with
      | none => simpa [forEachOpenFile, hfile] using ih d
      | some file =>
          have hrest := ih (inProgress file d)
          cases hmode : file.writable <;>
            simpa [forEachOpenFile, hfile, inProgress, hmode] using hrest

/-- What the test for a deadlock looks at. -/
theorem refusesAsDeadlock_iff :
    refusesAsDeadlock (takeTicket s pid) pid filpWritable = true ↔
      s.Opens pid (!filpWritable) ∨
        filpWritable = true ∧ (pid : Int) = s.d.writeOwner := by
  obtain ⟨hread, hwrite, howner⟩ := forEachOpenFile_ids s.files (s.fds pid)
    { s.d with ticketHead := s.d.ticketHead + 1, readIds := 0, writeIds := 0 }
  have hread' : (takeTicket s pid).readIds ≠ 0 ↔ s.Opens pid false := by
    simpa [System.Opens, takeTicket] using hread
  have hwrite' : (takeTicket s pid).writeIds ≠ 0 ↔ s.Opens pid true := by
    simpa [System.Opens, takeTicket] using hwrite
  have howner' : (takeTicket s pid).writeOwner = s.d.writeOwner := howner
  unfold refusesAsDeadlock
  rw [decide_eq_true_iff, hread', hwrite', howner']
  cases filpWritable <;> simp

/-- The ticket of this call will be served or handed on when its turn comes:
the call is not refused as a deadlock, and a signal only ends a wait whose
ticket is `ticket_tail`. -/
structure KeepsQueue (action : Action) (s : System) : Prop where
  room : RoomForTicket action s
  refused : ∀ pid filp file, action = .acquire pid filp →
    s.deviceDescriptor pid filp = some file →
      ¬ s.Opens pid (!file.writable) ∧
        (file.writable = true → (pid : Int) ≠ s.d.writeOwner)
  interrupted : ∀ pid filp filpWritable ticketCur woken, action = .signal pid →
    s.place pid = .waiting filp filpWritable ticketCur woken →
      condition s.d ticketCur filpWritable = false →
        ticketCur = s.d.ticketTail

namespace Queued

theorem unchanged (h : Queued s q) (hhead : s'.d.ticketHead = s.d.ticketHead)
    (htail : s'.d.ticketTail = s.d.ticketTail)
    (hcall : ∀ pid, (s'.place pid).call = (s.place pid).call)
    (hscheduled : ∀ pid filp filpWritable ticketCur,
      s'.place pid = .scheduled filp filpWritable ticketCur →
        s.place pid = .scheduled filp filpWritable ticketCur)
    (hlog : s'.log.filter Entry.isTicket = s.log.filter Entry.isTicket) :
    Queued s' q :=
  h.congr hhead htail hcall (fun _ _ _ _ hnew =>
    (h.scheduled _ _ _ _ (hscheduled _ _ _ _ hnew)).trans htail.symm) hlog

theorem dropped (h : Queued s q) (filp : Handle) : Queued (fput s filp) q :=
  h.unchanged (by simp) (by simp) (by simp) (fun _ _ _ _ => fput_scheduled) (by simp)

theorem tryAcquire (h : Queued s q) (pid : Pid) (filp : Handle)
    (filpWritable : Bool) : Queued (tryAcquire s pid filp filpWritable) q := by
  unfold Osprd.tryAcquire
  split <;> split <;>
    exact h.unchanged rfl rfl (fun _ => rfl) (fun _ _ _ _ hnew => hnew) rfl

theorem release (h : Queued s q) (pid : Pid) (filp : Handle) (file : File) :
    Queued (release s pid filp file) q := by
  unfold Osprd.release
  split
  · exact h.unchanged rfl rfl (fun _ => rfl) (fun _ _ _ _ hnew => hnew) rfl
  · refine h.unchanged ?_ ?_ (fun _ => Place.call_wake _)
      (fun _ _ _ _ hnew => Place.wake_eq_scheduled.mp hnew) rfl
    · dsimp only [record_d, wakeUpAll_d]
      split <;> rfl
    · dsimp only [record_d, wakeUpAll_d]
      split <;> rfl

/-- A waiter goes on to `schedule`, or to sleep again. -/
theorem moveOn (h : Queued s q) {place : Place}
    (hcall : place.call = (s.place pid).call)
    (hscheduled : ∀ filp filpWritable ticketCur,
      place = .scheduled filp filpWritable ticketCur →
        ticketCur = s.d.ticketTail) : Queued (s.setPlace pid place) q := by
  refine h.congr rfl rfl ?_ ?_ rfl
  · intro other
    by_cases hother : other = pid
    · subst hother
      simpa using hcall
    · simp [hother]
  · intro other filp filpWritable ticketCur hnew
    by_cases hother : other = pid
    · subst hother
      exact hscheduled filp filpWritable ticketCur (by simpa using hnew)
    · exact h.scheduled other _ _ _ (by simpa [hother] using hnew)

theorem interrupt (h : Queued s q) {woken : Bool}
    (hplace : s.place pid = .waiting filp filpWritable ticketCur woken) :
    ∃ q', Queued (interrupt s pid filp ticketCur) q' ∧
      (ticketCur = s.d.ticketTail → q.Complete → q'.Complete) := by
  have hcall : (s.place pid).call = some (filp, filpWritable, ticketCur) := by
    rw [hplace]
    rfl
  obtain ⟨htaken, hlast, hserved⟩ :=
    tickets_of_filter (interrupt_tickets s pid filp ticketCur)
  have htail := interrupt_ticketTail s pid filp ticketCur
  by_cases hturn : ticketCur = s.d.ticketTail
  · have hticket := h.ticket_eq_tail hcall hturn
    refine ⟨q.pass pid hticket, ?_, fun _ hcomplete => hcomplete.pass hticket⟩
    exact h.retire true (fun _ => hticket) rfl rfl rfl interrupt_ticketHead
      (htail.trans (if_pos hturn)) htaken (hserved.trans h.served) hlast
      (fun _ hother => interrupt_call hother)
      (fun _ _ _ _ hother => interrupt_scheduled hother) interrupt_outside
  · refine ⟨q.leave pid, ?_, fun heq => absurd heq hturn⟩
    exact h.retire false (by simp) rfl rfl rfl interrupt_ticketHead
      (htail.trans (if_neg hturn)) htaken (hserved.trans h.served) hlast
      (fun _ hother => interrupt_call hother)
      (fun _ _ _ _ hother => interrupt_scheduled hother) interrupt_outside

theorem serve (h : Queued s q) (hticket : q.ticket pid = some q.tail)
    (hhead : s'.d.ticketHead = s.d.ticketHead)
    (htail : s'.d.ticketTail = s.d.ticketTail + 1)
    (hlog : s'.log.filter Entry.isTicket =
      .granted pid filp (some ticketCur) :: s.log.filter Entry.isTicket)
    (hcall : ∀ other, other ≠ pid → (s'.place other).call = (s.place other).call)
    (hscheduled : ∀ other filp filpWritable ticketCur, other ≠ pid →
      s'.place other = .scheduled filp filpWritable ticketCur →
        s.place other = .scheduled filp filpWritable ticketCur)
    (houtside : s'.place pid = .outside) : Queued s' (q.serve pid hticket) := by
  refine h.retire true (fun _ => hticket) rfl rfl rfl hhead htail ?_ ?_ ?_ hcall
    hscheduled houtside
  · rw [← takenTickets_filter, hlog]
    exact takenTickets_filter s.log
  · rw [← grantedTickets_filter, hlog, grantedTickets, lastTicket_filter,
      grantedTickets_filter, h.last pid _ hticket, h.served]
    rfl
  · intro other
    rw [← lastTicket_filter, hlog]
    exact lastTicket_filter other s.log

theorem proceed (h : Queued s q)
    (hplace : s.place pid = .scheduled filp filpWritable ticketCur) :
    ∃ q', Queued (fput ((grant s pid filp filpWritable ticketCur).setPlace pid
      .outside) filp) q' ∧ (q.Complete → q'.Complete) := by
  have hcall := Place.call_of_scheduled hplace
  have hticket := h.ticket_eq_tail hcall (h.scheduled _ _ _ _ hplace)
  refine ⟨q.serve pid hticket, ?_, fun hcomplete => hcomplete.serve hticket⟩
  have hgranted : Queued ((grant s pid filp filpWritable ticketCur).setPlace pid
      .outside) (q.serve pid hticket) := by
    refine h.serve hticket (by simp) (by simp) rfl ?_ ?_ (by simp)
    · intro other hother
      simp [hother, grant]
    · intro other _ _ _ hother hnew
      simpa [hother, grant] using hnew
  exact hgranted.dropped filp

theorem acquire (h : Queued s q) (hidle : s.place pid = .outside)
    (hroom : s.d.outstanding + 1 < 2 ^ 32) (filp : Handle) (filpWritable : Bool) :
    ∃ q', Queued (acquire s pid filp filpWritable) q' ∧
      (refusesAsDeadlock (takeTicket s pid) pid filpWritable = false →
        q.Complete → q'.Complete) := by
  have hnone := h.ticket_eq_none hidle
  unfold Osprd.acquire
  dsimp only
  split
  · rename_i hrefused
    refine ⟨q.draw, ?_, fun hnot => absurd hrefused (by simp [hnot])⟩
    exact h.draw hidle hroom (by simp) (by simp) rfl rfl
  · split
    · refine ⟨q.enter pid, ?_, fun _ hcomplete => hcomplete.enter hnone⟩
      refine h.enter hidle hroom (by simp [fget]) (by simp [fget]) rfl ?_ ?_ ?_
      · intro other hother
        simp [hother, fget]
      · simp [Place.ticket, Place.call]
      · simp
    · rename_i hnowait
      -- The call is granted as if it had blocked and its turn had come.
      let blocked : System := { s with
        d := takeTicket s pid
        place := Function.update s.place pid
          (.waiting filp filpWritable s.d.ticketHead false)
        log := .ticketTaken pid filp s.d.ticketHead :: s.log }
      have hblocked : Queued blocked (q.enter pid) := by
        refine h.enter hidle hroom (by simp [blocked]) (by simp [blocked]) rfl ?_ ?_ ?_
        · intro other hother
          simp [hother, blocked]
        · simp [blocked, Place.ticket, Place.call]
        · simp [blocked]
      have hturn : s.d.ticketHead = s.d.ticketTail := by
        have hcondition : condition (takeTicket s pid) s.d.ticketHead filpWritable =
            true := by simpa [hasToWait_eq] using hnowait
        simpa using (condition_iff.mp hcondition).2.2
      have hticket : (q.enter pid).ticket pid = some (q.enter pid).tail :=
        hblocked.ticket_eq_tail
          (show (blocked.place pid).call = some (filp, filpWritable, s.d.ticketHead) by
            simp [blocked, Place.call])
          (hturn.trans (by simp [blocked]))
      refine ⟨(q.enter pid).serve pid hticket, ?_, fun _ hcomplete =>
        (hcomplete.enter hnone).serve hticket⟩
      refine hblocked.serve hticket ?_ ?_ rfl ?_ ?_ ?_
      · simp [blocked]
      · simp [blocked]
      · intro other hother
        simp [hother, blocked, grant]
      · intro other _ _ _ hother hnew
        simpa [hother, blocked, grant] using hnew
      · exact hidle

/-- Each step is a step of the queue; if it keeps the turns of the others, it
leaves no gap. -/
theorem step (h : Queued s q) {action : Action} (hroom : RoomForTicket action s)
    (hstep : step action s = some s') :
    ∃ q', Queued s' q' ∧ (KeepsQueue action s → q.Complete → q'.Complete) := by
  cases action with
  | openFile pid onDevice writable =>
      simp only [Osprd.step] at hstep
      split at hstep
      · refine ⟨q, Option.some.inj hstep ▸ ?_, fun _ => id⟩
        exact h.unchanged rfl rfl (fun _ => rfl) (fun _ _ _ _ => id) rfl
      · simp at hstep
  | share owner pid filp =>
      obtain ⟨file, -, rfl⟩ := Option.map_eq_some_iff.mp hstep
      exact ⟨q, h.unchanged rfl rfl (fun _ => rfl) (fun _ _ _ _ => id) rfl, fun _ => id⟩
  | close pid filp =>
      obtain ⟨file, -, rfl⟩ := Option.map_eq_some_iff.mp hstep
      have hbefore : Queued { s with
          fds := Function.update s.fds pid ((s.fds pid).erase filp) } q :=
        h.unchanged rfl rfl (fun _ => rfl) (fun _ _ _ _ => id) rfl
      exact ⟨q, hbefore.dropped filp, fun _ => id⟩
  | acquire pid filp =>
      obtain ⟨file, hfile, rfl⟩ := Option.map_eq_some_iff.mp hstep
      obtain ⟨hidle, -⟩ := deviceDescriptor_eq_some hfile
      obtain ⟨q', hqueued, hcomplete⟩ :=
        h.acquire hidle (hroom pid filp rfl) filp file.writable
      refine ⟨q', hqueued, fun hkeeps => hcomplete ?_⟩
      obtain ⟨hopens, howner⟩ := hkeeps.refused pid filp file rfl hfile
      rw [← Bool.not_eq_true, refusesAsDeadlock_iff]
      rintro (hopen | ⟨hwritable, howns⟩)
      · exact hopens hopen
      · exact howner hwritable howns
  | tryAcquire pid filp =>
      obtain ⟨file, -, rfl⟩ := Option.map_eq_some_iff.mp hstep
      exact ⟨q, h.tryAcquire pid filp file.writable, fun _ => id⟩
  | release pid filp =>
      obtain ⟨file, -, rfl⟩ := Option.map_eq_some_iff.mp hstep
      exact ⟨q, h.release pid filp file, fun _ => id⟩
  | resume pid =>
      simp only [Osprd.step] at hstep
      split at hstep
      · rename_i filp filpWritable ticketCur hplace
        refine ⟨q, ?_, fun _ => id⟩
        split at hstep
        · rename_i hcondition
          refine Option.some.inj hstep ▸ h.moveOn (by rw [hplace]; rfl) ?_
          rintro _ _ _ heq
          cases heq
          exact (condition_iff.mp hcondition).2.2
        · exact Option.some.inj hstep ▸ h.moveOn (by rw [hplace]; rfl) (by simp)
      · simp at hstep
  | signal pid =>
      simp only [Osprd.step] at hstep
      split at hstep
      · rename_i filp filpWritable ticketCur woken hplace
        split at hstep
        · rename_i hcondition
          refine ⟨q, Option.some.inj hstep ▸ h.moveOn (by rw [hplace]; rfl) ?_,
            fun _ => id⟩
          rintro _ _ _ heq
          cases heq
          exact (condition_iff.mp hcondition).2.2
        · rename_i hcondition
          obtain ⟨q', hqueued, hcomplete⟩ := h.interrupt hplace
          refine ⟨q', Option.some.inj hstep ▸ hqueued, fun hkeeps => hcomplete ?_⟩
          exact hkeeps.interrupted pid _ _ _ _ rfl hplace (by simpa using hcondition)
      · simp at hstep
  | proceed pid =>
      simp only [Osprd.step] at hstep
      split at hstep
      · rename_i filp filpWritable ticketCur hplace
        obtain ⟨q', hqueued, hcomplete⟩ := h.proceed hplace
        exact ⟨q', Option.some.inj hstep ▸ hqueued, fun _ => hcomplete⟩
      · simp at hstep

end Queued

end Cs111Labs.Osprd
