import Mathlib.Tactic
import Mathlib.Data.List.Pairwise
import Mathlib.Logic.Function.Basic

/-!
# A queue of numbered tickets

Tickets are numbered in the order in which they are drawn.  Those below `tail`
are past, those from `tail` to `head` are outstanding.  An outstanding ticket
need not have a holder: its holder may have left before its turn.
-/

namespace Cs111Labs.Foundation

variable {α : Type}

structure TicketQueue (α : Type) where
  head : Nat
  tail : Nat
  /-- The ticket of somebody who waits. -/
  ticket : α → Option Nat
  /-- The tickets that were served, newest first. -/
  served : List Nat
  tail_le : tail ≤ head
  bounds : ∀ a k, ticket a = some k → tail ≤ k ∧ k < head
  injective : ∀ a b k, ticket a = some k → ticket b = some k → a = b
  served_lt : ∀ k ∈ served, k < tail
  sorted : served.Pairwise (· > ·)

namespace TicketQueue

def empty : TicketQueue α where
  head := 0
  tail := 0
  ticket _ := none
  served := []
  tail_le := le_rfl
  bounds := by simp
  injective := by simp
  served_lt := by simp
  sorted := .nil

/-- A ticket is drawn and thrown away. -/
def draw (q : TicketQueue α) : TicketQueue α where
  head := q.head + 1
  tail := q.tail
  ticket := q.ticket
  served := q.served
  tail_le := Nat.le_succ_of_le q.tail_le
  bounds a k h := ⟨(q.bounds a k h).1, Nat.lt_succ_of_lt (q.bounds a k h).2⟩
  injective := q.injective
  served_lt := q.served_lt
  sorted := q.sorted

/-- Everybody else holds a later ticket than the one whose turn it is. -/
theorem tail_lt (q : TicketQueue α) {a b : α} {k : Nat}
    (ha : q.ticket a = some q.tail) (hb : b ≠ a) (hk : q.ticket b = some k) :
    q.tail < k := by
  have hle := (q.bounds b k hk).1
  have hne : q.tail ≠ k := by
    rintro rfl
    exact hb (q.injective b a _ hk ha)
  omega

/-- Every outstanding ticket has a holder. -/
def Complete (q : TicketQueue α) : Prop :=
  ∀ k, q.tail ≤ k → k < q.head → ∃ a, q.ticket a = some k

namespace Complete

variable {q : TicketQueue α}

theorem empty : (TicketQueue.empty : TicketQueue α).Complete := by
  intro k _ hk
  exact absurd hk (Nat.not_lt_zero k)

/-- The queue is empty, or the oldest ticket is the one whose turn it is. -/
theorem servable (h : q.Complete) :
    (q.head = q.tail ∧ ∀ a, q.ticket a = none) ∨
      ∃ a, q.ticket a = some q.tail ∧
        ∀ b k, q.ticket b = some k → q.tail ≤ k := by
  rcases Nat.eq_or_lt_of_le q.tail_le with heq | hlt
  · refine .inl ⟨heq.symm, fun a => ?_⟩
    cases hk : q.ticket a with
    | none => rfl
    | some k =>
        have hbounds := q.bounds a k hk
        omega
  · obtain ⟨a, ha⟩ := h q.tail le_rfl hlt
    exact .inr ⟨a, ha, fun b k hk => (q.bounds b k hk).1⟩

end Complete

variable [DecidableEq α]

def enter (q : TicketQueue α) (a : α) : TicketQueue α where
  head := q.head + 1
  tail := q.tail
  ticket := Function.update q.ticket a (some q.head)
  served := q.served
  tail_le := Nat.le_succ_of_le q.tail_le
  bounds b k h := by
    by_cases hb : b = a
    · subst hb
      obtain rfl : q.head = k := by simpa using h
      exact ⟨q.tail_le, Nat.lt_succ_self _⟩
    · have hold := q.bounds b k (by simpa [hb] using h)
      exact ⟨hold.1, Nat.lt_succ_of_lt hold.2⟩
  injective b c k hb hc := by
    have hnew : ∀ x, x ≠ a → Function.update q.ticket a (some q.head) x = some k →
        q.ticket x = some k ∧ k ≠ q.head := by
      intro x hx h
      have hold : q.ticket x = some k := by simpa [hx] using h
      exact ⟨hold, Nat.ne_of_lt (q.bounds x k hold).2⟩
    by_cases hba : b = a <;> by_cases hca : c = a
    · exact hba.trans hca.symm
    · obtain rfl : q.head = k := by simpa [hba] using hb
      exact absurd rfl (hnew c hca hc).2
    · obtain rfl : q.head = k := by simpa [hca] using hc
      exact absurd rfl (hnew b hba hb).2
    · exact q.injective b c k (hnew b hba hb).1 (hnew c hca hc).1
  served_lt := q.served_lt
  sorted := q.sorted

theorem ticket_of_ne {q : TicketQueue α} {a b : α} {k : Nat}
    (h : Function.update q.ticket a none b = some k) :
    b ≠ a ∧ q.ticket b = some k := by
  by_cases hb : b = a
  · subst hb
    simp at h
  · exact ⟨hb, by simpa [hb] using h⟩

def serve (q : TicketQueue α) (a : α) (ha : q.ticket a = some q.tail) :
    TicketQueue α where
  head := q.head
  tail := q.tail + 1
  ticket := Function.update q.ticket a none
  served := q.tail :: q.served
  tail_le := (q.bounds a q.tail ha).2
  bounds b k h := by
    obtain ⟨hb, hk⟩ := ticket_of_ne h
    exact ⟨q.tail_lt ha hb hk, (q.bounds b k hk).2⟩
  injective b c k hb hc :=
    q.injective b c k (ticket_of_ne hb).2 (ticket_of_ne hc).2
  served_lt k h := by
    rcases List.mem_cons.mp h with rfl | hold
    · exact Nat.lt_succ_self _
    · exact Nat.lt_succ_of_lt (q.served_lt k hold)
  sorted := List.pairwise_cons.mpr ⟨q.served_lt, q.sorted⟩

/-- The one whose turn it is goes away. -/
def pass (q : TicketQueue α) (a : α) (ha : q.ticket a = some q.tail) :
    TicketQueue α where
  head := q.head
  tail := q.tail + 1
  ticket := Function.update q.ticket a none
  served := q.served
  tail_le := (q.serve a ha).tail_le
  bounds := (q.serve a ha).bounds
  injective := (q.serve a ha).injective
  served_lt k h := Nat.lt_succ_of_lt (q.served_lt k h)
  sorted := q.sorted

/-- Somebody goes away before the turn comes. -/
def leave (q : TicketQueue α) (a : α) : TicketQueue α where
  head := q.head
  tail := q.tail
  ticket := Function.update q.ticket a none
  served := q.served
  tail_le := q.tail_le
  bounds b k h := q.bounds b k (ticket_of_ne h).2
  injective b c k hb hc :=
    q.injective b c k (ticket_of_ne hb).2 (ticket_of_ne hc).2
  served_lt := q.served_lt
  sorted := q.sorted

namespace Complete

variable {q : TicketQueue α}

theorem enter (h : q.Complete) {a : α} (ha : q.ticket a = none) :
    (q.enter a).Complete := by
  intro k htail hhead
  rcases Nat.lt_succ_iff_lt_or_eq.mp hhead with hold | rfl
  · obtain ⟨b, hb⟩ := h k htail hold
    have hne : b ≠ a := by
      rintro rfl
      simp [ha] at hb
    exact ⟨b, by simpa [TicketQueue.enter, hne] using hb⟩
  · exact ⟨a, by simp [TicketQueue.enter]⟩

theorem pass (h : q.Complete) {a : α} (ha : q.ticket a = some q.tail) :
    (q.pass a ha).Complete := by
  intro k htail hhead
  obtain ⟨b, hb⟩ := h k (Nat.le_of_succ_le htail) hhead
  have hne : b ≠ a := by
    rintro rfl
    obtain rfl : q.tail = k := Option.some.inj (ha.symm.trans hb)
    exact absurd htail (Nat.not_succ_le_self _)
  exact ⟨b, by simpa [TicketQueue.pass, hne] using hb⟩

theorem serve (h : q.Complete) {a : α} (ha : q.ticket a = some q.tail) :
    (q.serve a ha).Complete :=
  h.pass ha

end Complete

end TicketQueue

end Cs111Labs.Foundation
