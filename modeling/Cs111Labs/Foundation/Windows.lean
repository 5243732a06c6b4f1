import Mathlib.Tactic

/-!
# Conditions on three neighbours in a list
-/

namespace Cs111Labs.Foundation

variable {α : Type} {P Q : α → α → α → Prop} {x y z : α} {items : List α}

/-- `P` holds of every three neighbours. -/
def Windows (P : α → α → α → Prop) : List α → Prop
  | x :: y :: z :: items => P x y z ∧ Windows P (y :: z :: items)
  | _ => True

namespace Windows

theorem nil_iff : Windows P [] ↔ True := Iff.rfl

theorem one_iff : Windows P [x] ↔ True := Iff.rfl

theorem two_iff : Windows P [x, y] ↔ True := Iff.rfl

theorem cons_iff : Windows P (x :: y :: z :: items) ↔
    P x y z ∧ Windows P (y :: z :: items) := Iff.rfl

theorem cons_head_iff : Windows P (x :: y :: items) ↔
    (∀ z ∈ items.head?, P x y z) ∧ Windows P (y :: items) := by
  cases items with
  | nil => simp [two_iff, one_iff]
  | cons z items => simp [cons_iff]

theorem exists_of_mem (h : Windows P (x :: y :: items)) {z : α} (hz : z ∈ items) :
    ∃ x y, P x y z := by
  induction items generalizing x y with
  | nil => cases hz
  | cons a items ih =>
      obtain ⟨hfirst, hrest⟩ := cons_iff.1 h
      cases hz with
      | head => exact ⟨x, y, hfirst⟩
      | tail _ hz => exact ih hrest hz

theorem concat_iff : Windows P (items ++ [x, y, z]) ↔
    Windows P (items ++ [x, y]) ∧ P x y z := by
  induction items with
  | nil => simp [cons_iff, two_iff]
  | cons a items ih =>
      cases items with
      | nil => simp [cons_iff, two_iff]
      | cons b items =>
          cases items with
          | nil => simp [cons_iff, two_iff, and_assoc]
          | cons c items =>
              simp only [List.cons_append, cons_iff] at ih ⊢
              rw [ih, and_assoc]

theorem reverse_iff : Windows P items.reverse ↔
    Windows (fun x y z => P z y x) items := by
  induction items with
  | nil => simp [nil_iff]
  | cons a items ih =>
      cases items with
      | nil => simp [one_iff]
      | cons b items =>
          cases items with
          | nil => simp [two_iff]
          | cons c items =>
              have hsplit : (a :: b :: c :: items).reverse =
                  items.reverse ++ [c, b, a] := by simp
              have hrest : (b :: c :: items).reverse =
                  items.reverse ++ [c, b] := by simp
              rw [hsplit, concat_iff, ← hrest, ih, cons_iff, and_comm]

theorem and_iff : Windows (fun x y z => P x y z ∧ Q x y z) items ↔
    Windows P items ∧ Windows Q items := by
  induction items with
  | nil => simp [nil_iff]
  | cons a items ih =>
      cases items with
      | nil => simp [one_iff]
      | cons b items =>
          cases items with
          | nil => simp [two_iff]
          | cons c items =>
              simp only [cons_iff, ih]
              exact and_and_and_comm

instance [∀ x y z, Decidable (P x y z)] (items : List α) :
    Decidable (Windows P items) := by
  induction items with
  | nil => exact isTrue trivial
  | cons a items ih =>
      match items, ih with
      | [], _ => exact isTrue trivial
      | [_], _ => exact isTrue trivial
      | b :: c :: items, ih => exact inferInstanceAs (Decidable (_ ∧ _))

end Windows

end Cs111Labs.Foundation
