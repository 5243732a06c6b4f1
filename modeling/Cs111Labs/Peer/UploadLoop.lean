import Mathlib.Tactic

/-!
# The upload loop of a peer

The last loop of `main`.  It accepts a connection and forks a child for it, at
most `MAXCONNPID` at a time: `pid_counter` counts the children, but goes down
only where the limit is hit, and then the connection at hand is given up.
-/

namespace Cs111Labs.Peer

/-- `MAXCONNPID` -/
def maxconnpid : Int := 10

/-- What one pass of the loop gets from outside. -/
structure Incoming where
  /-- The descriptor that `accept` returned to `task_listen`. -/
  peerFd : Nat
  forks : Bool
  /-- The child that `waitpid` returned, or an error. -/
  waitpid : Option Nat
  deriving DecidableEq, Repr

inductive ServeEvent where
  | accepted (peerFd : Nat)
  /-- A child that runs `task_upload` on the connection. -/
  | uploading (peerFd : Nat)
  | waited (child : Option Nat)
  deriving DecidableEq, Repr

/-- One pass of the loop.  Also `-1` of `waitpid` is not 0. -/
def servePass (incoming : Incoming) (pidCounter : Int) : List ServeEvent × Int :=
  if pidCounter < maxconnpid then
    if incoming.forks then
      ([.accepted incoming.peerFd, .uploading incoming.peerFd], pidCounter + 1)
    else ([.accepted incoming.peerFd, .waited incoming.waitpid], pidCounter - 1)
  else ([.accepted incoming.peerFd, .waited incoming.waitpid], pidCounter - 1)

def serve : List Incoming → Int → List ServeEvent
  | [], _ => []
  | incoming :: rest, pidCounter =>
      (servePass incoming pidCounter).1 ++ serve rest (servePass incoming pidCounter).2

/-! ## Every connection is served -/

def ServeEvent.isAccepted : ServeEvent → Bool
  | accepted _ => true
  | _ => false

def ServeEvent.isUploading : ServeEvent → Bool
  | uploading _ => true
  | _ => false

/-- Between a connection and the next one there is one child, and it is for the first. -/
def ServesAll (trace : List ServeEvent) : Prop :=
  ∀ before peerFd after, trace = before ++ .accepted peerFd :: after →
    (after.takeWhile fun event => !event.isAccepted).filter ServeEvent.isUploading =
      [.uploading peerFd]

theorem serve_eq_cons (incoming : Incoming) (rest : List Incoming) (pidCounter : Int) :
    ∃ event, event.isAccepted = false ∧
      serve (incoming :: rest) pidCounter = .accepted incoming.peerFd :: event ::
        serve rest (servePass incoming pidCounter).2 ∧
      (event = .uploading incoming.peerFd ∨
        event = .waited incoming.waitpid ∧
          ¬ (pidCounter < maxconnpid ∧ incoming.forks = true)) := by
  rw [serve, servePass]
  split_ifs with hlt hforks
  · exact ⟨_, rfl, rfl, .inl rfl⟩
  · exact ⟨_, rfl, rfl, .inr ⟨rfl, fun h => hforks h.2⟩⟩
  · exact ⟨_, rfl, rfl, .inr ⟨rfl, fun h => hlt h.1⟩⟩

/-- The events of one pass end where the next connection is accepted. -/
theorem takeWhile_serve (incoming : List Incoming) (pidCounter : Int) :
    ((serve incoming pidCounter).takeWhile fun event => !event.isAccepted) = [] := by
  cases incoming with
  | nil => rfl
  | cons incoming rest =>
      obtain ⟨event, -, hserve, -⟩ := serve_eq_cons incoming rest pidCounter
      rw [hserve]
      rfl

theorem servesAll_cons_iff {peerFd : Nat} {event : ServeEvent} {trace : List ServeEvent}
    (hevent : event.isAccepted = false)
    (hnext : (trace.takeWhile fun event => !event.isAccepted) = []) :
    ServesAll (.accepted peerFd :: event :: trace) ↔
      event = .uploading peerFd ∧ ServesAll trace := by
  constructor
  · intro h
    have hfirst := h [] peerFd (event :: trace) rfl
    rw [List.takeWhile_cons_of_pos (by rw [hevent]; rfl), hnext] at hfirst
    refine ⟨?_, fun before fd after heq => ?_⟩
    · cases event with
      | accepted fd => cases hevent
      | uploading fd => exact (List.cons.inj hfirst).1
      | waited child => cases hfirst
    · exact h (.accepted peerFd :: event :: before) fd after (by rw [heq]; rfl)
  · rintro ⟨rfl, h⟩ before fd after heq
    cases before with
    | nil =>
        obtain ⟨hfd, rfl⟩ := List.cons.inj heq
        injection hfd with hfd
        rw [List.takeWhile_cons_of_pos rfl, hnext, hfd]
        rfl
    | cons first before =>
        obtain ⟨-, heq⟩ := List.cons.inj heq
        cases before with
        | nil =>
            obtain ⟨hfd, -⟩ := List.cons.inj heq
            cases hfd
        | cons second before => exact h before fd after (List.cons.inj heq).2

/-- Connections are given up as soon as the counter comes to the limit. -/
theorem servesAll_serve_iff (incoming : List Incoming) (pidCounter : Int)
    (hforks : ∀ i ∈ incoming, i.forks = true) :
    ServesAll (serve incoming pidCounter) ↔
      incoming = [] ∨ pidCounter + incoming.length ≤ maxconnpid := by
  induction incoming generalizing pidCounter with
  | nil =>
      simp only [true_or, iff_true]
      intro before fd after heq
      exact absurd heq (by simp [serve])
  | cons first rest ih =>
      obtain ⟨event, hevent, hserve, hcases⟩ := serve_eq_cons first rest pidCounter
      have hfork := hforks first List.mem_cons_self
      rw [hserve, servesAll_cons_iff hevent (takeWhile_serve _ _),
        ih _ fun i hi => hforks i (List.mem_cons_of_mem _ hi)]
      simp only [reduceCtorEq, false_or, List.length_cons, Nat.cast_add, Nat.cast_one]
      by_cases hlt : pidCounter < maxconnpid
      · have hnext : (servePass first pidCounter).2 = pidCounter + 1 := by
          simp [servePass, hlt, hfork]
        have hchild : event = .uploading first.peerFd :=
          hcases.resolve_right fun h => h.2 ⟨hlt, hfork⟩
        rw [hnext]
        cases rest with
        | nil =>
            simp only [hchild, true_or, and_true, List.length_nil, Nat.cast_zero, true_iff]
            omega
        | cons second rest =>
            simp only [hchild, true_and, reduceCtorEq, false_or, List.length_cons]
            omega
      · have hgiven : event ≠ .uploading first.peerFd := by
          rintro rfl
          rw [serve, servePass, if_neg hlt] at hserve
          simp at hserve
        simp only [hgiven, false_and, false_iff]
        omega

theorem servesAll_serve_iff_one : ServesAll (serve [⟨3, true, none⟩] 9) :=
  (servesAll_serve_iff [⟨3, true, none⟩] 9 (by decide)).2 (.inr (by decide))

/-- The eleventh connection gets no child. -/
theorem eleventh_not_servesAll :
    ¬ ServesAll (serve ((List.range 11).map fun fd => ⟨fd, true, none⟩) 0) := by
  intro h
  have hlast := h ((List.range 10).flatMap fun fd => [.accepted fd, .uploading fd]) 10
    [.waited none] (by decide)
  exact absurd hlast (by decide)

end Cs111Labs.Peer
