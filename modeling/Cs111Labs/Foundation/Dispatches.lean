import Cs111Labs.Foundation.Run

/-!
# Bounded bypass

Some steps of a run are dispatches, which choose what is served next.  A rank that
every dispatch lowers while it chooses something else bounds how often what waits
is passed over.
-/

namespace Cs111Labs.Foundation

variable {State Event : Type} {step : Event → State → Option State}
  {allowed : Event → State → Prop} {dispatches : Event → Prop} {first : State}

/-- A run with the states after its dispatches, the latest first. -/
inductive Dispatched (step : Event → State → Option State)
    (allowed : Event → State → Prop) (dispatches : Event → Prop) (first : State) :
    List State → State → Prop
  | start : Dispatched step allowed dispatches first [] first
  | other {seen : List State} {s s' : State} {event : Event} :
      Dispatched step allowed dispatches first seen s → allowed event s →
      ¬ dispatches event → step event s = some s' →
      Dispatched step allowed dispatches first seen s'
  | dispatch {seen : List State} {s s' : State} {event : Event} :
      Dispatched step allowed dispatches first seen s → allowed event s →
      dispatches event → step event s = some s' →
      Dispatched step allowed dispatches first (s' :: seen) s'

/-- `newer` is the state after a dispatch from a state that is linked to `older`. -/
def NextDispatch (step : Event → State → Option State) (allowed : Event → State → Prop)
    (dispatches : Event → Prop) (first : State) (link : State → State → Prop)
    (newer older : State) : Prop :=
  ∃ s event, Reaches step allowed first s ∧ link older s ∧ allowed event s ∧
    dispatches event ∧ step event s = some newer

namespace Dispatched

variable {seen : List State} {s : State}

theorem reaches (h : Dispatched step allowed dispatches first seen s) :
    Reaches step allowed first s := by
  induction h with
  | start => exact .start
  | other _ hallowed _ heq ih => exact .step ih hallowed heq
  | dispatch _ hallowed _ heq ih => exact .step ih hallowed heq

/-- What every dispatch establishes holds of the states after them. -/
theorem forall_mem {P : State → Prop} (h : Dispatched step allowed dispatches first seen s)
    (hdispatch : ∀ event s s', Reaches step allowed first s → allowed event s →
      dispatches event → step event s = some s' → P s') : ∀ k ∈ seen, P k := by
  induction h with
  | start => nofun
  | other _ _ _ _ ih => exact ih
  | dispatch hrun hallowed hevent heq ih =>
      exact List.forall_mem_cons.mpr ⟨hdispatch _ _ _ hrun.reaches hallowed hevent heq, ih⟩

/-- A relation that the other steps keep links each dispatch to the next one. -/
theorem isChain (link : State → State → Prop)
    (h : Dispatched step allowed dispatches first seen s)
    (hself : ∀ s, Reaches step allowed first s → link s s)
    (hother : ∀ event k s s', Reaches step allowed first s → link k s → allowed event s →
      ¬ dispatches event → step event s = some s' → link k s') :
    seen.IsChain (NextDispatch step allowed dispatches first link) ∧ ∀ k ∈ seen.head?, link k s := by
  induction h with
  | start => exact ⟨.nil, nofun⟩
  | other hrun hallowed hevent heq ih =>
      exact ⟨ih.1, fun k hk =>
        hother _ _ _ _ hrun.reaches (ih.2 k hk) hallowed hevent heq⟩
  | @dispatch seen s s' event hrun hallowed hevent heq ih =>
      constructor
      · cases seen with
        | nil => exact .singleton _
        | cons k seen =>
            exact List.isChain_cons_cons.mpr ⟨⟨s, event, hrun.reaches, ih.2 k rfl, hallowed,
              hevent, heq⟩, ih.1⟩
      · rintro k hk
        obtain rfl := Option.some.inj hk
        exact hself _ (.step hrun.reaches hallowed heq)

/-- The run of a list of events. -/
def runDispatches (step : Event → State → Option State) (dispatches : Event → Prop)
    [DecidablePred dispatches] :
    List Event → List State → State → Option (List State × State)
  | [], seen, s => some (seen, s)
  | event :: events, seen, s =>
      (step event s).bind fun s' =>
        runDispatches step dispatches events (if dispatches event then s' :: seen else seen) s'

theorem of_runDispatches [DecidablePred dispatches] (events : List Event)
    (hallowed : ∀ event ∈ events, ∀ s, allowed event s) {seen seen' : List State}
    {s s' : State} (h : Dispatched step allowed dispatches first seen s)
    (hrun : runDispatches step dispatches events seen s = some (seen', s')) :
    Dispatched step allowed dispatches first seen' s' := by
  induction events generalizing seen s with
  | nil =>
      obtain ⟨rfl, rfl⟩ := Prod.mk.inj (Option.some.inj hrun)
      exact h
  | cons event events ih =>
      obtain ⟨hthis, hrest⟩ := List.forall_mem_cons.mp hallowed
      obtain ⟨next, hnext, hlater⟩ := Option.bind_eq_some_iff.mp hrun
      split_ifs at hlater with hevent
      · exact ih hrest (.dispatch h (hthis s) hevent hnext) hlater
      · exact ih hrest (.other h (hthis s) hevent hnext) hlater

end Dispatched

/-- Along a chain that lowers a rank below `bound` there are at most `bound` states. -/
theorem length_le_of_rank {link : State → State → Prop} (rank : State → Nat) (bound : Nat)
    {seen : List State} (hchain : seen.IsChain link)
    (hrank : ∀ newer ∈ seen, ∀ older ∈ seen, link newer older → rank newer < rank older)
    (hbound : ∀ k ∈ seen, rank k < bound) : seen.length ≤ bound := by
  have hlower : seen.IsChain fun newer older => rank newer < rank older :=
    hchain.imp_of_mem_imp fun newer older hnewer holder => hrank newer hnewer older holder
  cases seen with
  | nil => exact Nat.zero_le _
  | cons newest seen =>
      have hlast : seen.length + rank newest < bound := by
        clear hchain hrank
        induction seen generalizing newest with
        | nil => simpa using hbound newest (by simp)
        | cons older seen ih =>
            obtain ⟨hlt, hrest⟩ := List.isChain_cons_cons.mp hlower
            have hbelow := ih older (fun k hk => hbound k (by simp_all)) hrest
            rw [List.length_cons]
            omega
      rw [List.length_cons]
      omega

end Cs111Labs.Foundation
