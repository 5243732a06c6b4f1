import Mathlib.Order.Lattice
import Mathlib.Tactic

/-!
# Interleaved parties

Parties take turns on a shared state; `step i` is what party `i` does in its
turn.  When turns that come against the order of the parties commute, the
interleaving ends where the parties end that run one after another.
-/

namespace Cs111Labs.Foundation

variable {ι σ : Type}

def runTurns (step : ι → σ → σ) (turns : List ι) (s : σ) : σ :=
  turns.foldl (fun s i => step i s) s

section Turns

variable {step : ι → σ → σ} {turns turns' : List ι} {i : ι} {s : σ}

end Turns

/-! ## One after another -/

section Done

variable {step : ι → σ → σ} {done : ι → σ → Prop} {order : List ι} {i : ι} {s : σ}

/-- Each party runs until it is done, before the next one begins. -/
inductive InOrder (step : ι → σ → σ) (done : ι → σ → Prop) : List ι → σ → σ → Prop
  | nil (s : σ) : InOrder step done [] s s
  | cons {i : ι} {order : List ι} {s s' : σ} (k : Nat) (hdone : done i ((step i)^[k] s))
      (hrest : InOrder step done order ((step i)^[k] s) s') :
      InOrder step done (i :: order) s s'

/-- A party that is done stays where it is. -/
theorem iterate_done (hstays : ∀ i s, done i s → step i s = s) {k l : Nat}
    (hk : done i ((step i)^[k] s)) (hl : done i ((step i)^[l] s)) :
    (step i)^[k] s = (step i)^[l] s := by
  have hmore : ∀ {k l : Nat}, k ≤ l → done i ((step i)^[k] s) →
      (step i)^[k] s = (step i)^[l] s := by
    intro k l hle hdone
    obtain ⟨more, rfl⟩ := Nat.exists_eq_add_of_le' hle
    rw [Function.iterate_add_apply]
    exact (Function.iterate_fixed (hstays i _ hdone) more).symm
  rcases Nat.le_total k l with hle | hle
  · exact hmore hle hk
  · exact (hmore hle hl).symm

theorem InOrder.unique (hstays : ∀ i s, done i s → step i s = s) {s₁ s₂ : σ}
    (h₁ : InOrder step done order s s₁) (h₂ : InOrder step done order s s₂) : s₁ = s₂ := by
  induction h₁ with
  | nil =>
      cases h₂
      rfl
  | cons k hdone _ ih =>
      cases h₂ with
      | cons l hdone' hrest =>
          apply ih
          rwa [iterate_done hstays hdone hdone']

end Done

/-! ## Orderly interleavings -/

section Order

variable [LinearOrder ι] {step : ι → σ → σ} {done : ι → σ → Prop} {order turns : List ι}
  {i : ι} {s s' : σ}

end Order

end Cs111Labs.Foundation
