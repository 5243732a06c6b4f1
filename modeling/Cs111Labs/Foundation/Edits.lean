import Mathlib.Tactic

/-!
# Edits of an array that grows and shrinks

A history lists the writes and the size changes, the newest first.  A cut need not
clear what it cuts off: `start k` is the greatest size at which the place `k` is
cleared, and where it is less than `k`, an old item may come back.
-/

namespace Cs111Labs.Foundation

inductive Edit (α : Type) where
  | wrote (pos : Nat) (items : List α)
  | resized (size : Nat)
  deriving DecidableEq, Repr

variable {α : Type} {start : Nat → Nat} {zero : α} {history newer older : List (Edit α)}
  {edit : Edit α} {k : Nat}

/-- The size after the edits. -/
def arraySize : List (Edit α) → Nat
  | [] => 0
  | .wrote pos items :: older => max (arraySize older) (pos + items.length)
  | .resized size :: _ => size

/-- The item at a place after the edits. -/
def lookup (start : Nat → Nat) (zero : α) : List (Edit α) → Nat → α
  | [], _ => zero
  | .wrote pos items :: older, k =>
      if pos ≤ k ∧ k < pos + items.length then items.getD (k - pos) zero
      else lookup start zero older k
  | .resized size :: older, k => if size ≤ start k then zero else lookup start zero older k

/-- The item last written, or `zero` if the array was cut below it since then. -/
def lastWritten (zero : α) : List (Edit α) → Nat → α := lookup id zero

/-- The edit writes or clears the place. -/
def Edit.Touches (start : Nat → Nat) (k : Nat) : Edit α → Prop
  | wrote pos items => pos ≤ k ∧ k < pos + items.length
  | resized size => size ≤ start k

/-- The last edit that touches the place writes an item other than `zero` to it;
`newer` are the edits since. -/
def Shown (start : Nat → Nat) (zero : α) (history : List (Edit α)) (k : Nat)
    (newer : List (Edit α)) : Prop :=
  ∃ pos items older, history = newer ++ .wrote pos items :: older ∧
    (pos ≤ k ∧ k < pos + items.length) ∧ items.getD (k - pos) zero ≠ zero ∧
    ∀ edit ∈ newer, ¬ edit.Touches start k

/-- The item is shown although it was cut off. -/
def Stale (start : Nat → Nat) (zero : α) (history : List (Edit α)) (k : Nat) : Prop :=
  ∃ newer, Shown start zero history k newer ∧ ∃ size ≤ k, .resized size ∈ newer

theorem lookup_wrote {pos : Nat} {items : List α} (h : pos ≤ k ∧ k < pos + items.length) :
    lookup start zero (.wrote pos items :: older) k = items.getD (k - pos) zero := if_pos h

theorem lookup_resized {size : Nat} (h : size ≤ start k) :
    lookup start zero (.resized size :: older) k = zero := if_pos h

theorem lookup_wrote_outside {pos : Nat} {items : List α}
    (h : ¬ (pos ≤ k ∧ k < pos + items.length)) :
    lookup start zero (.wrote pos items :: older) k = lookup start zero older k := if_neg h

theorem lookup_resized_above {size : Nat} (h : start k < size) :
    lookup start zero (.resized size :: older) k = lookup start zero older k :=
  if_neg (not_le.mpr h)

theorem lookup_of_not_touches (h : ¬ edit.Touches start k) :
    lookup start zero (edit :: older) k = lookup start zero older k := by
  cases edit <;> exact if_neg h

theorem not_shown_nil : ¬ Shown start zero [] k newer := by
  rintro ⟨pos, items, older, hsplit, -⟩
  simp at hsplit

theorem Shown.cons (h : Shown start zero older k newer) (htouch : ¬ edit.Touches start k) :
    Shown start zero (edit :: older) k (edit :: newer) := by
  obtain ⟨pos, items, oldest, rfl, hrange, hne, huntouched⟩ := h
  exact ⟨pos, items, oldest, rfl, hrange, hne, List.forall_mem_cons.mpr ⟨htouch, huntouched⟩⟩

/-- What is shown is shown by the newest edit or was so before it. -/
theorem Shown.cases (h : Shown start zero (edit :: older) k newer) :
    (newer = [] ∧ ∃ pos items, edit = .wrote pos items ∧
        (pos ≤ k ∧ k < pos + items.length) ∧ items.getD (k - pos) zero ≠ zero) ∨
      ∃ newer', newer = edit :: newer' ∧ ¬ edit.Touches start k ∧
        Shown start zero older k newer' := by
  obtain ⟨pos, items, oldest, hsplit, hrange, hne, huntouched⟩ := h
  cases newer with
  | nil =>
      obtain ⟨rfl, rfl⟩ := List.cons.inj hsplit
      exact .inl ⟨rfl, pos, items, rfl, hrange, hne⟩
  | cons edit' newer =>
      obtain ⟨rfl, rfl⟩ := List.cons.inj hsplit
      obtain ⟨htouch, huntouched⟩ := List.forall_mem_cons.mp huntouched
      exact .inr ⟨newer, rfl, htouch, pos, items, oldest, rfl, hrange, hne, huntouched⟩

theorem lookup_ne_zero_iff :
    lookup start zero history k ≠ zero ↔ ∃ newer, Shown start zero history k newer := by
  induction history with
  | nil => exact iff_of_false (fun hne => hne rfl) fun ⟨_, h⟩ => not_shown_nil h
  | cons edit older ih =>
      by_cases htouch : edit.Touches start k
      · -- The newest edit decides.
        cases edit with
        | wrote pos items =>
            rw [lookup_wrote htouch]
            constructor
            · intro hne
              exact ⟨[], pos, items, older, rfl, htouch, hne, nofun⟩
            · rintro ⟨newer, h⟩
              rcases h.cases with ⟨-, pos, items, heq, -, hne⟩ | ⟨_, -, hnot, -⟩
              · cases heq
                exact hne
              · exact absurd htouch hnot
        | resized size =>
            rw [lookup_resized htouch]
            refine iff_of_false (fun hne => hne rfl) ?_
            rintro ⟨newer, h⟩
            rcases h.cases with ⟨-, pos, items, heq, -⟩ | ⟨_, -, hnot, -⟩
            · cases heq
            · exact hnot htouch
      · rw [lookup_of_not_touches htouch, ih]
        constructor
        · rintro ⟨newer, h⟩
          exact ⟨edit :: newer, h.cons htouch⟩
        · rintro ⟨newer, h⟩
          rcases h.cases with ⟨-, pos, items, rfl, hrange, -⟩ | ⟨newer', -, -, h⟩
          · exact absurd hrange htouch
          · exact ⟨newer', h⟩

/-- The newest edit leaves the place alone, and it cuts the place off or an older
edit did. -/
theorem stale_cons_iff : Stale start zero (edit :: older) k ↔ ¬ edit.Touches start k ∧
    ((∃ size ≤ k, edit = .resized size) ∧ lookup start zero older k ≠ zero ∨
      Stale start zero older k) := by
  constructor
  · rintro ⟨newer, hshown, size, hsize, hmem⟩
    rcases hshown.cases with ⟨rfl, -⟩ | ⟨newer, rfl, htouch, hshown⟩
    · cases hmem
    · refine ⟨htouch, ?_⟩
      rcases List.mem_cons.mp hmem with heq | hmem
      · exact .inl ⟨⟨size, hsize, heq.symm⟩, lookup_ne_zero_iff.mpr ⟨newer, hshown⟩⟩
      · exact .inr ⟨newer, hshown, size, hsize, hmem⟩
  · rintro ⟨htouch, ⟨⟨size, hsize, rfl⟩, hne⟩ | ⟨newer, hshown, size, hsize, hmem⟩⟩
    · obtain ⟨newer, hshown⟩ := lookup_ne_zero_iff.mp hne
      exact ⟨_, hshown.cons htouch, size, hsize, .head _⟩
    · exact ⟨_, hshown.cons htouch, size, hsize, .tail _ hmem⟩

theorem Stale.lookup_ne_zero (h : Stale start zero history k) :
    lookup start zero history k ≠ zero := by
  obtain ⟨newer, hshown, -⟩ := h
  exact lookup_ne_zero_iff.mpr ⟨newer, hshown⟩

theorem Edit.Touches.mono (h : edit.Touches start k) (hstart : start k ≤ k) :
    edit.Touches id k := by
  cases edit with
  | wrote pos items => exact h
  | resized size => exact le_trans h hstart

/-- Items come back exactly where they are stale. -/
theorem lookup_eq_lastWritten_iff (hstart : start k ≤ k) :
    lookup start zero history k = lastWritten zero history k ↔
      ¬ Stale start zero history k := by
  unfold lastWritten
  induction history with
  | nil => exact iff_of_true rfl fun ⟨_, hshown, _⟩ => not_shown_nil hshown
  | cons edit older ih =>
      rw [stale_cons_iff]
      by_cases htouch : edit.Touches start k
      · refine iff_of_true ?_ fun hstale => hstale.1 htouch
        have hcut := htouch.mono hstart
        cases edit with
        | wrote pos items => rw [lookup_wrote htouch, lookup_wrote hcut]
        | resized size => rw [lookup_resized htouch, lookup_resized hcut]
      rw [lookup_of_not_touches htouch]
      by_cases hcut : edit.Touches id k
      · -- A cut that leaves the item in memory.
        cases edit with
        | wrote pos items => exact absurd hcut htouch
        | resized size =>
            rw [lookup_resized hcut]
            constructor
            · rintro hzero ⟨-, ⟨-, hne⟩ | hstale⟩
              · exact hne hzero
              · exact hstale.lookup_ne_zero hzero
            · intro hnot
              by_contra hne
              exact hnot ⟨htouch, .inl ⟨⟨size, hcut, rfl⟩, hne⟩⟩
      · rw [lookup_of_not_touches hcut, ih]
        have hnone : ¬ ∃ size ≤ k, edit = .resized size := by
          rintro ⟨size, hle, rfl⟩
          exact hcut hle
        simp only [htouch, hnone, not_false_eq_true, true_and, false_and, false_or]

end Cs111Labs.Foundation
