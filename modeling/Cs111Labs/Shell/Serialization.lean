import Cs111Labs.Foundation.Interleaving
import Cs111Labs.Shell.Collected
import Cs111Labs.Shell.TimeTravel

/-!
# Time travel ends like running the script in order

The commands run at the same time as far as `execute_tcmd` starts them so.  Each
of them reads and writes files in steps, which can come in any order between its
start and its end.  If the first output files tell the order of the script, the
files end as if every command had run to its end before the next one began.
-/

namespace Cs111Labs.Shell

open Foundation

variable {α β : Type} {n : Nat}

/-- What the processes of a command do next to the files, given their own state. -/
structure Program (α β : Type) where
  step : (CString → α) → β → (CString → α) × β
  finished : β → Bool

@[ext] structure World (n : Nat) (α β : Type) where
  contents : CString → α
  own : Fin n → β

def turn (programs : Fin n → Program α β) (ind : Fin n) (w : World n α β) : World n α β :=
  if (programs ind).finished (w.own ind) then w
  else
    let next := (programs ind).step w.contents (w.own ind)
    ⟨next.1, Function.update w.own ind next.2⟩

section Programs

variable {programs : Fin n → Program α β} {i j : Fin n} {w : World n α β}

end Programs

/-! ## Timelines -/

inductive Moment (n : Nat) where
  | event (e : Event n)
  | turn (ind : Fin n)
  deriving DecidableEq, Repr

def Moment.events (moments : List (Moment n)) : List (Event n) :=
  moments.filterMap fun moment => match moment with
    | .event e => some e
    | .turn _ => none

def Moment.turns (moments : List (Moment n)) : List (Fin n) :=
  moments.filterMap fun moment => match moment with
    | .event _ => none
    | .turn ind => some ind

theorem Moment.mem_turns {ind : Fin n} {moments : List (Moment n)} :
    ind ∈ Moment.turns moments ↔ .turn ind ∈ moments := by
  unfold Moment.turns
  rw [List.mem_filterMap]
  constructor
  · rintro ⟨moment, hmem, heq⟩
    cases moment with
    | event e' => cases heq
    | turn ind' => exact Option.some.inj heq ▸ hmem
  · exact fun hmem => ⟨.turn ind, hmem, rfl⟩

section Timeline

variable {graph : Fin n → Fin n → Int} {log : List (Event n)} {moments : List (Moment n)}

end Timeline

/-! ## Time travel -/

variable {commands : List Command}

end Cs111Labs.Shell
