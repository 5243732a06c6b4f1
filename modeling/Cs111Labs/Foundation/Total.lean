import Mathlib.Tactic
import Mathlib.Algebra.BigOperators.Group.Finset.Basic
import Mathlib.Algebra.Order.BigOperators.Group.Finset

/-!
# Totals with finitely many contributions

`Totals use n` says that the numbers `use i` add up to `n`, all but finitely
many of them being zero.  A reference count is such a total.
-/

namespace Cs111Labs.Foundation

variable {ι : Type} {use use' : ι → Nat} {n n' : Nat}

def Totals (use : ι → Nat) (n : Nat) : Prop :=
  ∃ users : Finset ι, (∀ i, i ∉ users → use i = 0) ∧ ∑ i ∈ users, use i = n

namespace Totals

theorem zero : Totals (fun _ : ι => 0) 0 := ⟨∅, by simp, by simp⟩

theorem le [DecidableEq ι] (h : Totals use n) (i : ι) : use i ≤ n := by
  obtain ⟨users, houtside, rfl⟩ := h
  by_cases hi : i ∈ users
  · exact Finset.single_le_sum (f := use) (fun _ _ => Nat.zero_le _) hi
  · simp [houtside i hi]

/-- One contribution changes. -/
theorem update [DecidableEq ι] (h : Totals use n) (i : ι)
    (hother : ∀ j, j ≠ i → use' j = use j) (hn : n' + use i = n + use' i) :
    Totals use' n' := by
  obtain ⟨users, houtside, rfl⟩ := h
  refine ⟨insert i users, ?_, ?_⟩
  · intro j hj
    have hne : j ≠ i := fun heq => hj (heq ▸ Finset.mem_insert_self i users)
    rw [hother j hne]
    exact houtside j fun hmem => hj (Finset.mem_insert_of_mem hmem)
  · have hrest : ∑ j ∈ users.erase i, use' j = ∑ j ∈ users.erase i, use j :=
      Finset.sum_congr rfl fun j hj => hother j (Finset.ne_of_mem_erase hj)
    have hnew : ∑ j ∈ insert i users, use' j =
        use' i + ∑ j ∈ users.erase i, use j := by
      rw [← hrest, ← Finset.add_sum_erase _ use' (Finset.mem_insert_self i users),
        Finset.erase_insert_eq_erase]
    have hold : ∑ j ∈ users, use j = use i + ∑ j ∈ users.erase i, use j := by
      by_cases hi : i ∈ users
      · exact (Finset.add_sum_erase users use hi).symm
      · rw [houtside i hi, Finset.erase_eq_of_notMem hi, Nat.zero_add]
    omega

theorem congr (h : Totals use n) (heq : ∀ i, use' i = use i) :
    Totals use' n := by
  rwa [funext heq]

end Totals

end Cs111Labs.Foundation
