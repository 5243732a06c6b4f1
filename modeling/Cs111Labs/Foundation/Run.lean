import Mathlib.Tactic

/-!
# Runs of a guarded step function

`step event s` is `none` where the event cannot happen in `s`.  A run is
restricted by `allowed`, a condition on each event and the state before it;
`fun _ _ => True` gives all runs.
-/

namespace Cs111Labs.Foundation

variable {State Event : Type} {step : Event → State → Option State}
  {allowed : Event → State → Prop} {first : State}

inductive Reaches (step : Event → State → Option State)
    (allowed : Event → State → Prop) (first : State) : State → Prop
  | start : Reaches step allowed first first
  | step {s s' : State} {event : Event} :
      Reaches step allowed first s → allowed event s → step event s = some s' →
      Reaches step allowed first s'

namespace Reaches

theorem invariant {inv : State → Prop} (hfirst : inv first)
    (hstep : ∀ event s s', inv s → allowed event s → step event s = some s' →
      inv s')
    {s : State} (h : Reaches step allowed first s) : inv s := by
  induction h with
  | start => exact hfirst
  | step _ hallowed heq ih => exact hstep _ _ _ ih hallowed heq

/-- `step` with the event written out. -/
theorem next {s s' : State} (h : Reaches step allowed first s) (event : Event)
    (hallowed : allowed event s) (hstep : step event s = some s') :
    Reaches step allowed first s' :=
  .step h hallowed hstep

theorem mono {allowed' : Event → State → Prop}
    (himp : ∀ event s, allowed event s → allowed' event s) {s : State}
    (h : Reaches step allowed first s) : Reaches step allowed' first s := by
  induction h with
  | start => exact .start
  | step _ hallowed heq ih => exact .step ih (himp _ _ hallowed) heq

end Reaches

/-- Carry out a list of events. -/
def runEvents (step : Event → State → Option State) :
    List Event → State → Option State
  | [], s => some s
  | event :: events, s => (step event s).bind (runEvents step events)

theorem runEvents_append {done left : List Event} {s s' : State} :
    runEvents step (done ++ left) s = some s' ↔
      ∃ next, runEvents step done s = some next ∧ runEvents step left next = some s' := by
  induction done generalizing s with
  | nil => simp [runEvents]
  | cons event done ih =>
      rw [List.cons_append, runEvents, runEvents]
      cases step event s with
      | none => simp
      | some next => exact ih

theorem Reaches.of_runEvents (events : List Event) {s s' : State}
    (h : Reaches step (fun _ _ => True) first s)
    (hrun : runEvents step events s = some s') :
    Reaches step (fun _ _ => True) first s' := by
  induction events generalizing s with
  | nil => exact Option.some.inj hrun ▸ h
  | cons event events ih =>
      obtain ⟨next, hnext, hrest⟩ := Option.bind_eq_some_iff.mp hrun
      exact ih (.step h trivial hnext) hrest

end Cs111Labs.Foundation
