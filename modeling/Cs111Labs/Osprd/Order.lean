import Cs111Labs.Osprd.Queue

/-!
# Requests are served in order

The order of the tickets holds in every run.  That every ticket is served does
not: a call that is refused as a deadlock, or interrupted before its turn, leaves
a ticket behind that `ticket_tail` never passes.
-/

namespace Cs111Labs.Osprd

open Foundation

variable {s s' : System} {pid other : Pid} {filp : Handle}
  {file : File} {filpWritable : Bool} {ticketCur : Word} {q : TicketQueue Pid}

theorem queued_of_reaches (h : Reaches step RoomForTicket osprdSetup s) :
    ∃ q, Queued s q := by
  induction h with
  | start => exact ⟨.empty, .initial⟩
  | step _ hroom hstep ih =>
      obtain ⟨q, hqueued⟩ := ih
      obtain ⟨q', hqueued', -⟩ := hqueued.step hroom hstep
      exact ⟨q', hqueued'⟩

/-- What the tickets promise: granted calls had increasing tickets (the history
has the newest first), blocked calls hold tickets that are not past, and nobody
gets the lock beside a blocked call. -/
structure ServesInOrder (s : System) : Prop where
  granted : ∃ served : List Nat,
    grantedTickets s.log = served.map some ∧ served.Pairwise (· > ·)
  waiting : ∀ pid filp filpWritable ticketCur,
    (s.place pid).call = some (filp, filpWritable, ticketCur) →
      ticketCur - s.d.ticketTail < s.d.ticketHead - s.d.ticketTail
  tryAcquire : ∀ pid filp filpWritable other,
    s.place other ≠ .outside →
      tryAcquire s pid filp filpWritable = s.record (.returned pid .ebusy)

theorem Queued.head_ne_tail (h : Queued s q) (hblocked : s.place pid ≠ .outside) :
    s.d.ticketHead ≠ s.d.ticketTail := by
  cases hcall : (s.place pid).call with
  | none => exact absurd (Place.call_eq_none.mp hcall) hblocked
  | some call =>
      intro heq
      have hbetween := h.between hcall
      simp [heq] at hbetween

theorem Queued.servesInOrder (h : Queued s q) : ServesInOrder s where
  granted := ⟨q.served, h.served, q.sorted⟩
  waiting _ _ _ _ hcall := h.between hcall
  tryAcquire pid filp filpWritable other hblocked := by
    have hne := h.head_ne_tail hblocked
    unfold Osprd.tryAcquire
    cases filpWritable <;> simp [hne]

theorem servesInOrder_of_room (h : Reaches step RoomForTicket osprdSetup s) :
    ServesInOrder s :=
  let ⟨_, hqueued⟩ := queued_of_reaches h
  hqueued.servesInOrder

theorem servesInOrder_of_room_blocked :
    ∃ s, runEvents step [.openFile 0 true true, .openFile 1 true true,
        .acquire 0 0, .acquire 1 1] osprdSetup = some s ∧
      s.place 1 = .waiting 1 true 1 false ∧ ServesInOrder s := by
  refine ⟨_, rfl, rfl, servesInOrder_of_room
    ((((Reaches.start.next (.openFile 0 true true) (by simp [RoomForTicket])
      rfl).next (.openFile 1 true true) (by simp [RoomForTicket]) rfl).next
        (.acquire 0 0) (fun _ _ _ => ?_) rfl).next (.acquire 1 1)
          (fun _ _ _ => ?_) rfl)⟩
  · decide
  · decide

/-! ## Turns that nobody takes -/

/-- Nobody waits, or the blocked call with the oldest ticket is the next one. -/
def Servable (s : System) : Prop :=
  (∀ pid, s.place pid = .outside) ∧ s.d.ticketHead = s.d.ticketTail ∨
    ∃ pid filp filpWritable,
      (s.place pid).call = some (filp, filpWritable, s.d.ticketTail) ∧
        ∀ other, s.place other ≠ .outside → ∃ k l,
          lastTicket pid s.log = some k ∧ lastTicket other s.log = some l ∧ k ≤ l

theorem Queued.servable (h : Queued s q) (hcomplete : q.Complete) :
    Servable s := by
  rcases hcomplete.servable with ⟨hempty, hnobody⟩ | ⟨pid, hpid, -⟩
  · refine .inl ⟨fun pid => ?_, by rw [h.head, h.tail, hempty]⟩
    rw [← Place.call_eq_none]
    simpa [hnobody pid, Place.ticket] using h.ticket pid
  · refine .inr ?_
    have hticket := h.ticket pid
    rw [hpid] at hticket
    obtain ⟨⟨filp, filpWritable, ticketCur⟩, hcall, rfl⟩ :=
      Option.map_eq_some_iff.mp hticket
    refine ⟨pid, filp, filpWritable, ?_, fun other hblocked => ?_⟩
    · rw [hcall, h.turn_of_ticket hcall hpid]
    · cases hother : (s.place other).call with
      | none => exact absurd (Place.call_eq_none.mp hother) hblocked
      | some call =>
          obtain ⟨k, hk, -⟩ := h.number hother
          exact ⟨q.tail, k, h.last pid _ hpid, h.last other k hk,
            (q.bounds other k hk).1⟩

theorem complete_of_reaches (h : Reaches step KeepsQueue osprdSetup s) :
    ∃ q, Queued s q ∧ q.Complete := by
  induction h with
  | start => exact ⟨.empty, .initial, .empty⟩
  | step _ hkeeps hstep ih =>
      obtain ⟨q, hqueued, hcomplete⟩ := ih
      obtain ⟨q', hqueued', hcomplete'⟩ := hqueued.step hkeeps.room hstep
      exact ⟨q', hqueued', hcomplete' hkeeps hcomplete⟩

theorem servable_of_keepsQueue (h : Reaches step KeepsQueue osprdSetup s) :
    Servable s :=
  let ⟨_, hqueued, hcomplete⟩ := complete_of_reaches h
  hqueued.servable hcomplete

theorem keepsQueue_openFile (onDevice writable : Bool) :
    KeepsQueue (.openFile pid onDevice writable) s where
  room := by simp [RoomForTicket]
  refused := by simp
  interrupted := by simp

theorem keepsQueue_acquire (hfile : s.deviceDescriptor pid filp = some file)
    (hroom : s.d.outstanding + 1 < 2 ^ 32)
    (hnot : refusesAsDeadlock (takeTicket s pid) pid file.writable = false) :
    KeepsQueue (.acquire pid filp) s where
  room _ _ _ := hroom
  refused := by
    rintro _ _ found ⟨⟩ hfound
    obtain rfl : file = found := Option.some.inj (hfile.symm.trans hfound)
    rw [← Bool.not_eq_true, refusesAsDeadlock_iff, not_or, not_and] at hnot
    exact hnot
  interrupted := by simp

theorem keepsQueue_signal {woken : Bool}
    (hplace : s.place pid = .waiting filp filpWritable ticketCur woken)
    (hturn : ticketCur = s.d.ticketTail) : KeepsQueue (.signal pid) s where
  room := by simp [RoomForTicket]
  refused := by simp
  interrupted := by
    rintro _ _ _ _ _ ⟨⟩ hfound _
    cases hplace.symm.trans hfound
    exact hturn

theorem servable_of_keepsQueue_interrupted :
    ∃ s, runEvents step [.openFile 0 true true, .openFile 1 true true,
        .acquire 0 0, .acquire 1 1, .signal 1] osprdSetup = some s ∧
      s.d.ticketTail = 2 ∧ Servable s := by
  refine ⟨_, rfl, by decide, servable_of_keepsQueue
    (((((Reaches.start.next (.openFile 0 true true) (keepsQueue_openFile _ _)
      rfl).next (.openFile 1 true true) (keepsQueue_openFile _ _) rfl).next
        (.acquire 0 0) (keepsQueue_acquire rfl ?_ ?_) rfl).next (.acquire 1 1)
          (keepsQueue_acquire rfl ?_ ?_) rfl).next (.signal 1)
            (keepsQueue_signal rfl ?_) rfl)⟩ <;> decide

/-- A call that waits behind another one is interrupted, and the lock is given
back. -/
def interruptInMiddle : List Action :=
  [.openFile 0 true true, .openFile 1 true true, .openFile 2 true true,
    .acquire 0 0, .acquire 1 1, .acquire 2 2, .signal 2, .release 0 0,
    .resume 1, .proceed 1, .release 1 1]

theorem interruptInMiddle_not_servable :
    ¬ ∀ s, Reaches step (fun _ _ => True) osprdSetup s →
      (∀ filp, s.lockMode filp = none) → Servable s := by
  intro hall
  obtain ⟨s, hrun, hhead, hplace, hfree⟩ : ∃ s,
      runEvents step interruptInMiddle osprdSetup = some s ∧
      s.d.ticketHead ≠ s.d.ticketTail ∧ (∀ pid, s.place pid = .outside) ∧
      ∀ filp, s.lockMode filp = none := by
    refine ⟨_, rfl, by decide, ?_, ?_⟩
    · intro pid
      rcases pid with _ | _ | _ | pid <;> rfl
    · intro filp
      rcases filp with _ | _ | _ | filp <;> rfl
  rcases hall s (Reaches.of_runEvents _ .start hrun) hfree with
    ⟨-, heq⟩ | ⟨pid, filp, filpWritable, hcall, -⟩
  · exact hhead heq
  · simp [hplace pid] at hcall

end Cs111Labs.Osprd
