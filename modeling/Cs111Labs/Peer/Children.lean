import Cs111Labs.Peer.UploadLoop
import Cs111Labs.Foundation.Run

/-!
# The children of a peer

The two loops of `main` share `pid_counter`, and differ only in what ends them.
Where `fork` fails, or the limit is hit, `main` waits for a child and takes one
from the counter; the result of `waitpid` is only compared with 0.
-/

namespace Cs111Labs.Peer

open Foundation

structure Parent where
  /-- The files of the command line that are left to download; then come the uploads. -/
  files : Nat
  returned : Bool
  waiting : Bool
  pidCounter : Int
  running : List Nat
  zombies : List Nat
  deriving DecidableEq, Repr

namespace Parent

def start (files : Nat) : Parent := ⟨files, false, false, 0, [], []⟩

inductive Event where
  /-- A child terminates. -/
  | exits (pid : Nat)
  /-- `start_download` or `task_listen` returns a task. -/
  | task (fork : Option Nat)
  | noTask
  /-- `waitpid` returns a child, or `-1`. -/
  | waited (child : Option Nat)
  deriving DecidableEq, Repr

def step : Event → Parent → Option Parent
  | .exits pid, s =>
      if pid ∈ s.running then
        some { s with running := s.running.erase pid, zombies := pid :: s.zombies }
      else none
  | .task fork, s =>
      if s.waiting || s.returned then none
      else if s.pidCounter < maxconnpid then
        match fork with
        | some pid =>
            if pid ∈ s.running ++ s.zombies then none
            else
              -- `argc--` in the first loop; the second one has no file left.
              some { s with files := s.files - 1, pidCounter := s.pidCounter + 1,
                            running := pid :: s.running }
        | none => some { s with waiting := true }
      else some { s with waiting := true }
  | .noTask, s =>
      if s.waiting || s.returned then none
      else if s.files = 0 then some { s with returned := true }
      else some { s with files := s.files - 1 }
  | .waited (some pid), s =>
      if s.waiting ∧ pid ∈ s.zombies then
        some { s with waiting := false, pidCounter := s.pidCounter - 1,
                      zombies := s.zombies.erase pid }
      else none
  | .waited none, s =>
      if s.waiting ∧ s.running ++ s.zombies = [] then
        some { s with waiting := false, pidCounter := s.pidCounter - 1 }
      else none

/-- The children that no `waitpid` has returned. -/
def unreaped (s : Parent) : Nat := s.running.length + s.zombies.length

def Bounded (s : Parent) : Prop :=
  s.unreaped ≤ s.pidCounter ∧ 0 ≤ s.pidCounter ∧ s.pidCounter ≤ maxconnpid

/-- The counter is right as long as every wait finds a child. -/
def Counted (s : Parent) : Prop :=
  s.pidCounter = s.unreaped ∧ s.pidCounter ≤ maxconnpid

theorem Counted.bounded {s : Parent} (h : Counted s) : Bounded s :=
  ⟨h.1.ge, h.1 ▸ Int.natCast_nonneg _, h.2⟩

theorem counted_start (files : Nat) : Counted (start files) := by
  constructor
  · rfl
  · exact (by decide : (0 : Int) ≤ maxconnpid)

theorem Counted.next {event : Event} {s s' : Parent} (h : Counted s)
    (hevent : event ≠ .waited none) (hstep : step event s = some s') : Counted s' := by
  obtain ⟨hcount, hlimit⟩ := h
  cases event with
  | exits pid =>
      simp only [Parent.step, Option.ite_none_right_eq_some, Option.some.injEq] at hstep
      obtain ⟨hmem, rfl⟩ := hstep
      have hpos := List.length_pos_of_mem hmem
      have hleft := List.length_erase_of_mem hmem
      refine ⟨?_, hlimit⟩
      simp only [unreaped, List.length_cons] at hcount ⊢
      omega
  | task fork =>
      simp only [Parent.step] at hstep
      split_ifs at hstep with hbusy hlt
      · cases fork with
        | none =>
            obtain rfl := Option.some.inj hstep
            exact ⟨hcount, hlimit⟩
        | some pid =>
            obtain ⟨-, hs'⟩ := Option.ite_none_left_eq_some.mp hstep
            obtain rfl := Option.some.inj hs'
            simp only [Counted, unreaped, List.length_cons] at hcount ⊢
            omega
      · obtain rfl := Option.some.inj hstep
        exact ⟨hcount, hlimit⟩
  | noTask =>
      simp only [Parent.step] at hstep
      split_ifs at hstep
      all_goals
        obtain rfl := Option.some.inj hstep
        exact ⟨hcount, hlimit⟩
  | waited child =>
      cases child with
      | none => exact absurd rfl hevent
      | some pid =>
          simp only [Parent.step, Option.ite_none_right_eq_some, Option.some.injEq] at hstep
          obtain ⟨⟨-, hmem⟩, rfl⟩ := hstep
          have hpos := List.length_pos_of_mem hmem
          have hleft := List.length_erase_of_mem hmem
          simp only [Counted, unreaped] at hcount ⊢
          omega

theorem Counted.run (events : List Event) {s s' : Parent} (h : Counted s)
    (hevents : .waited none ∉ events) (hrun : runEvents step events s = some s') :
    Counted s' := by
  induction events generalizing s with
  | nil => exact Option.some.inj hrun ▸ h
  | cons event events ih =>
      obtain ⟨next, hnext, hrest⟩ := Option.bind_eq_some_iff.mp hrun
      rw [List.mem_cons, not_or] at hevents
      exact ih (h.next (Ne.symm hevents.1) hnext) hevents.2 hrest

/-- A wait without a child leaves the counter below 0. -/
theorem Counted.waited_none {s s' : Parent} (h : Counted s)
    (hstep : step (.waited none) s = some s') : s'.pidCounter = -1 := by
  simp only [Parent.step, Option.ite_none_right_eq_some, Option.some.injEq,
    List.append_eq_nil_iff] at hstep
  obtain ⟨⟨-, hrunning, hzombies⟩, rfl⟩ := hstep
  have hcount := h.1
  rw [unreaped, hrunning, hzombies] at hcount
  change s.pidCounter - 1 = -1
  rw [hcount]
  rfl

end Parent

open Parent

theorem children_bounded_iff (events : List Parent.Event) (files : Nat) {last : Parent}
    (hrun : runEvents Parent.step events (start files) = some last) :
    (∀ done left s, events = done ++ left →
      runEvents Parent.step done (start files) = some s → Bounded s) ↔
      .waited none ∉ events := by
  constructor
  · intro hbounded hmem
    -- Up to the first wait without a child, the counter is right.
    obtain ⟨done, left, rfl, hdone⟩ := List.eq_append_cons_of_mem hmem
    obtain ⟨s, hs, hrest⟩ := runEvents_append.mp hrun
    obtain ⟨s', hs', -⟩ := Option.bind_eq_some_iff.mp hrest
    have hcounted := Counted.run done (counted_start files) hdone hs
    have hneg := (hbounded (done ++ [.waited none]) left s' (by simp)
      (runEvents_append.mpr ⟨s, hs, by rw [runEvents, hs']; rfl⟩)).2.1
    rw [hcounted.waited_none hs'] at hneg
    exact absurd hneg (by decide)
  · rintro hmem done left s rfl hs
    exact (Counted.run done (counted_start files)
      (fun h => hmem (List.mem_append_left _ h)) hs).bounded

/-- A child is forked, it terminates, and then a `fork` fails: the wait finds the child. -/
def reaped : List Parent.Event := [.task (some 7), .exits 7, .task none, .waited (some 7)]

theorem children_bounded_iff_reaped :
    .waited none ∉ reaped ∧ ∀ done left s, reaped = done ++ left →
      runEvents Parent.step done (start 2) = some s → Bounded s :=
  ⟨by decide, (children_bounded_iff reaped 2 rfl).2 (by decide)⟩

/-- The first `fork` fails. -/
theorem firstFork_not_bounded :
    ¬ ∀ events files s, runEvents Parent.step events (start files) = some s → Bounded s := by
  intro h
  have hneg := (h [.task none, .waited none] 1 _ rfl).2.1
  exact absurd hneg (by decide)

end Cs111Labs.Peer
