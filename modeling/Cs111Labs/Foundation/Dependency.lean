import Mathlib.Data.Fintype.Basic
import Mathlib.Data.Fintype.EquivFin
import Mathlib.Data.Set.Finite.Basic
import Mathlib.Order.WellFounded
import Mathlib.Order.Preorder.Finite
import Mathlib.Logic.Relation
import Mathlib.Tactic

/-!
# Acyclic dependencies on a finite type

`r a b` reads "`b` depends on `a`".  Acyclicity is the absence of a nonempty
path from an element to itself.  On a finite type it gives induction along the
dependencies in both directions.
-/

namespace Cs111Labs.Foundation

variable {α : Type} {r : α → α → Prop}

/-- No element depends on itself, directly or through others. -/
def Acyclic (r : α → α → Prop) : Prop :=
  ∀ a, ¬ Relation.TransGen r a a

/-- Nothing depends on `a`. -/
def Last (r : α → α → Prop) (a : α) : Prop := ∀ b, ¬ r a b

namespace Acyclic

theorem of_lt [Preorder α] (h : ∀ a b, r a b → a < b) : Acyclic r := by
  intro a hcycle
  have hlt : ∀ b, Relation.TransGen r a b → a < b := by
    intro b hb
    induction hb with
    | single hab => exact h _ _ hab
    | tail _ hbc ih => exact ih.trans (h _ _ hbc)
  exact lt_irrefl a (hlt a hcycle)

theorem swap (h : Acyclic r) : Acyclic (fun a b => r b a) := by
  intro a hcycle
  exact h a (Relation.transGen_swap.mp hcycle)

theorem irrefl (h : Acyclic r) (a : α) : ¬ r a a :=
  fun ha => h a (.single ha)

theorem wellFounded [Finite α] (h : Acyclic r) : WellFounded r := by
  have : Std.Irrefl (Relation.TransGen r) := ⟨h⟩
  have : IsTrans α (Relation.TransGen r) := ⟨fun _ _ _ => .trans⟩
  exact Subrelation.wf (fun hab => Relation.TransGen.single hab)
    (Finite.wellFounded_of_trans_of_irrefl (Relation.TransGen r))

/-- A nonempty set contains an element none of whose dependencies are in it. -/
theorem exists_first [Finite α] (h : Acyclic r) {p : α → Prop}
    (hp : ∃ a, p a) : ∃ a, p a ∧ ∀ b, r b a → ¬ p b := by
  obtain ⟨a, ha⟩ := hp
  induction a using h.wellFounded.induction with
  | _ a ih =>
      by_cases hdep : ∃ b, r b a ∧ p b
      · obtain ⟨b, hba, hb⟩ := hdep
        exact ih b hba hb
      · exact ⟨a, ha, fun b hba hb => hdep ⟨b, hba, hb⟩⟩

end Acyclic

end Cs111Labs.Foundation
