import Mathlib.Tactic

/-!
# Scans that are resumed

A table is scanned by position in several calls, and it may change between
them.  Each call goes on where the one before has stopped.
-/

namespace Cs111Labs.Foundation

variable {σ α : Type} {pos : α → Nat} {shows : σ → α → Prop} {s : σ} {seen : List σ}
  {start mid stop : Nat} {items new : List α} {a : α}

/-- The items between two positions that a state shows, in order. -/
structure Covers (pos : α → Nat) (shows : σ → α → Prop) (s : σ) (start stop : Nat)
    (items : List α) : Prop where
  le : start ≤ stop
  bounds : ∀ a ∈ items, start ≤ pos a ∧ pos a < stop
  sorted : items.Pairwise fun a b => pos a < pos b
  sound : ∀ a ∈ items, shows s a
  complete : ∀ a, shows s a → start ≤ pos a → pos a < stop → a ∈ items

namespace Covers

theorem refl (s : σ) (start : Nat) : Covers pos shows s start start [] where
  le := le_rfl
  bounds _ ha := absurd ha List.not_mem_nil
  sorted := .nil
  sound _ ha := absurd ha List.not_mem_nil
  complete _ _ hle hlt := absurd hlt (Nat.not_lt.2 hle)

/-- A position without an item. -/
theorem skip (h : ∀ a, shows s a → pos a ≠ start) :
    Covers pos shows s start (start + 1) [] where
  le := Nat.le_succ start
  bounds _ ha := absurd ha List.not_mem_nil
  sorted := .nil
  sound _ ha := absurd ha List.not_mem_nil
  complete a ha hle hlt := absurd (Nat.le_antisymm (Nat.le_of_lt_succ hlt) hle) (h a ha)

/-- A position with an item. -/
theorem one (ha : shows s a) (hpos : pos a = start)
    (honly : ∀ b, shows s b → pos b = start → b = a) :
    Covers pos shows s start (start + 1) [a] where
  le := Nat.le_succ start
  bounds b hb := by
    rw [List.mem_singleton.1 hb, hpos]
    exact ⟨le_rfl, Nat.lt_succ_self start⟩
  sorted := List.pairwise_singleton _ a
  sound b hb := List.mem_singleton.1 hb ▸ ha
  complete b hb hle hlt := by
    rw [honly b hb (Nat.le_antisymm (Nat.le_of_lt_succ hlt) hle)]
    exact List.mem_singleton_self a

theorem trans (h : Covers pos shows s start mid items) (h' : Covers pos shows s mid stop new) :
    Covers pos shows s start stop (items ++ new) where
  le := h.le.trans h'.le
  bounds a ha := by
    have hle := h.le
    have hle' := h'.le
    rcases List.mem_append.1 ha with hmem | hmem
    · have hbounds := h.bounds a hmem
      omega
    · have hbounds := h'.bounds a hmem
      omega
  sorted := by
    refine List.pairwise_append.2 ⟨h.sorted, h'.sorted, fun a ha b hb => ?_⟩
    exact (h.bounds a ha).2.trans_le (h'.bounds b hb).1
  sound a ha := (List.mem_append.1 ha).elim (h.sound a) (h'.sound a)
  complete a ha hle hlt := by
    rcases Nat.lt_or_ge (pos a) mid with hmid | hmid
    · exact List.mem_append_left _ (h.complete a ha hle hmid)
    · exact List.mem_append_right _ (h'.complete a ha hmid hlt)

end Covers

/-- What calls in the states `seen` have reported, up to a position. -/
structure Scanned (pos : α → Nat) (shows : σ → α → Prop) (seen : List σ) (stop : Nat)
    (items : List α) : Prop where
  bounds : ∀ a ∈ items, pos a < stop
  sorted : items.Pairwise fun a b => pos a < pos b
  sound : ∀ a ∈ items, ∃ s ∈ seen, shows s a
  complete : ∀ a, (∀ s ∈ seen, shows s a) → pos a < stop → a ∈ items

namespace Scanned

theorem first : Scanned pos shows [] 0 [] where
  bounds _ ha := absurd ha List.not_mem_nil
  sorted := .nil
  sound _ ha := absurd ha List.not_mem_nil
  complete _ _ hlt := absurd hlt (Nat.not_lt_zero _)

/-- The next call, whatever has become of the table. -/
theorem next (h : Scanned pos shows seen start items) (hnew : Covers pos shows s start stop new) :
    Scanned pos shows (s :: seen) stop (items ++ new) where
  bounds a ha := by
    rcases List.mem_append.1 ha with hmem | hmem
    · exact (h.bounds a hmem).trans_le hnew.le
    · exact (hnew.bounds a hmem).2
  sorted := by
    refine List.pairwise_append.2 ⟨h.sorted, hnew.sorted, fun a ha b hb => ?_⟩
    exact (h.bounds a ha).trans_le (hnew.bounds b hb).1
  sound a ha := by
    rcases List.mem_append.1 ha with hmem | hmem
    · obtain ⟨t, ht, hshows⟩ := h.sound a hmem
      exact ⟨t, List.mem_cons_of_mem _ ht, hshows⟩
    · exact ⟨s, List.mem_cons_self, hnew.sound a hmem⟩
  complete a ha hlt := by
    rcases Nat.lt_or_ge (pos a) start with hbefore | hfrom
    · exact List.mem_append_left _
        (h.complete a (fun t ht => ha t (List.mem_cons_of_mem _ ht)) hbefore)
    · exact List.mem_append_right _ (hnew.complete a (ha s List.mem_cons_self) hfrom hlt)

end Scanned

end Cs111Labs.Foundation
