import Cs111Labs.Schedos.Interrupts

/-!
# Priority scheduling in SchedOS

`schedule()` with `scheduling_algorithm` 2.  The loop over all processes keeps the
best one so far and starts from the current process with the priority 100.
-/

namespace Cs111Labs.Schedos

open Foundation

/-- The variables `process` and `pri` -/
structure Best where
  process : Nat
  pri : Int

/-- One turn of the `for` loop. -/
def consider (m : Machine) (best : Best) (i : Nat) : Best :=
  if (m.procArray (i % nprocs)).state = .runnable ∧ m.priority (i % nprocs) < best.pri then
    ⟨i % nprocs, m.priority (i % nprocs)⟩
  else best

/-- The `for` loop, up to `n` turns. -/
def considered (m : Machine) (n : Nat) : Best :=
  (List.range' (m.current + 1) n).foldl (consider m) ⟨m.current, 100⟩

def schedulePriority (m : Machine) : Option Machine :=
  some { m with toKernel := m.run (considered m nprocs).process }

/-- The process is runnable and the best one; of several the first after the
current process in cyclic order. -/
def PicksBest (m : Machine) (process : Nat) : Prop :=
  (m.procArray process).state = .runnable ∧
    ∃ d < nprocs, process = (m.current + 1 + d) % nprocs ∧
      ∀ e < nprocs, (m.procArray ((m.current + 1 + e) % nprocs)).state = .runnable →
        m.priority process ≤ m.priority ((m.current + 1 + e) % nprocs) ∧
          (e < d → m.priority process < m.priority ((m.current + 1 + e) % nprocs))

variable {m : Machine}

theorem considered_succ (m : Machine) (n : Nat) :
    considered m (n + 1) = consider m (considered m n) (m.current + 1 + n) := by
  unfold considered
  rw [List.range'_1_concat, List.foldl_append]
  rfl

/-- After `n` turns: no process below 100 was met, or the best one is held. -/
theorem considered_cases (m : Machine) (n : Nat) :
    (considered m n = ⟨m.current, 100⟩ ∧
        ∀ e < n, (m.procArray ((m.current + 1 + e) % nprocs)).state = .runnable →
          100 ≤ m.priority ((m.current + 1 + e) % nprocs)) ∨
      ∃ d < n, ∃ process, process = (m.current + 1 + d) % nprocs ∧
        considered m n = ⟨process, m.priority process⟩ ∧ m.priority process < 100 ∧
        (m.procArray process).state = .runnable ∧
        ∀ e < n, (m.procArray ((m.current + 1 + e) % nprocs)).state = .runnable →
          m.priority process ≤ m.priority ((m.current + 1 + e) % nprocs) ∧
            (e < d → m.priority process < m.priority ((m.current + 1 + e) % nprocs)) := by
  induction n with
  | zero => exact .inl ⟨rfl, nofun⟩
  | succ n ih =>
      set next := (m.current + 1 + n) % nprocs with hnext
      rw [considered_succ, consider, ← hnext]
      have hlast : ∀ {e}, e < n + 1 → e < n ∨ e = n := fun he => by omega
      rcases ih with ⟨hbest, hhigh⟩ | ⟨d, hd, process, hprocess, hbest, hlow, hrun, hleast⟩
      · rw [hbest]
        split_ifs with hbetter
        · refine .inr ⟨n, by omega, next, hnext, rfl, hbetter.2, hbetter.1, ?_⟩
          intro e he hstate
          rcases hlast he with hold | rfl
          · have hold := hhigh e hold hstate
            have hnew := hbetter.2
            dsimp only at hnew
            omega
          · exact ⟨le_rfl, fun hlt => absurd hlt (lt_irrefl _)⟩
        · refine .inl ⟨rfl, fun e he hstate => ?_⟩
          rcases hlast he with hold | rfl
          · exact hhigh e hold hstate
          · exact not_lt.mp fun hlt => hbetter ⟨hstate, hlt⟩
      · rw [hbest]
        split_ifs with hbetter
        · have hnew : m.priority next < m.priority process := hbetter.2
          refine .inr ⟨n, by omega, next, hnext, rfl, by omega, hbetter.1, ?_⟩
          intro e he hstate
          rcases hlast he with hold | rfl
          · have hold := (hleast e hold hstate).1
            omega
          · exact ⟨le_rfl, fun hlt => absurd hlt (lt_irrefl _)⟩
        · refine .inr ⟨d, by omega, process, hprocess, rfl, hlow, hrun, ?_⟩
          intro e he hstate
          rcases hlast he with hold | rfl
          · exact hleast e hold hstate
          · exact ⟨not_lt.mp fun hlt => hbetter ⟨hstate, hlt⟩, fun hlt => by omega⟩

/-- A process by its place after the current one, which comes last. -/
theorem exists_place (hcurrent : m.current < nprocs) {i : Nat} (hi : i < nprocs) :
    ∃ e < nprocs, (m.current + 1 + e) % nprocs = i ∧ (e + 1 = nprocs ↔ i = m.current) := by
  refine ⟨(i + (nprocs - 1) + (nprocs - m.current)) % nprocs, Nat.mod_lt _ (by decide), ?_⟩
  unfold nprocs at *
  omega

/-- The best process is picked if its priority is below 100 or it is the current
process itself. -/
theorem picksBest_iff (hcurrent : m.current < nprocs) :
    (∃ m', schedulePriority m = some m' ∧ PicksBest m m'.current) ↔
      (∃ i < nprocs, (m.procArray i).state = .runnable ∧ m.priority i < 100) ∨
        (m.procArray m.current).state = .runnable ∧
          ∀ i < nprocs, i ≠ m.current → (m.procArray i).state = .runnable →
            m.priority m.current < m.priority i := by
  have hpicked : (∃ m', schedulePriority m = some m' ∧ PicksBest m m'.current) ↔
      PicksBest m (considered m nprocs).process := by
    constructor
    · rintro ⟨m', hschedule, hpicks⟩
      obtain rfl := Option.some.inj hschedule
      exact hpicks
    · exact fun h => ⟨_, rfl, h⟩
  rw [hpicked]
  rcases considered_cases m nprocs with
    ⟨hbest, hhigh⟩ | ⟨d, hd, process, hprocess, hbest, hlow, hrun, hleast⟩
  · have hnone : ¬ ∃ i < nprocs, (m.procArray i).state = .runnable ∧ m.priority i < 100 := by
      rintro ⟨i, hi, hrun, hlow⟩
      obtain ⟨e, he, rfl, -⟩ := exists_place hcurrent hi
      exact absurd (hhigh e he hrun) (not_le.mpr hlow)
    rw [hbest, or_iff_right hnone]
    constructor
    · rintro ⟨hrun, d, hd, hplace, hleast⟩
      refine ⟨hrun, fun i hi hne hstate => ?_⟩
      obtain ⟨e, he, rfl, hlast⟩ := exists_place hcurrent hi
      refine (hleast e he hstate).2 ?_
      have hself : d + 1 = nprocs := by
        change m.current = _ at hplace
        unfold nprocs at *
        omega
      omega
    · rintro ⟨hrun, hfirst⟩
      refine ⟨hrun, nprocs - 1, by decide, ?_, fun e he hstate => ?_⟩
      · change m.current = _
        unfold nprocs at *
        omega
      · obtain hself | hother := eq_or_ne ((m.current + 1 + e) % nprocs) m.current
        · rw [hself]
          refine ⟨le_rfl, fun hlt => ?_⟩
          unfold nprocs at *
          omega
        · have hless := hfirst _ (Nat.mod_lt _ (by decide)) hother hstate
          exact ⟨hless.le, fun _ => hless⟩
  · rw [hbest]
    have hlt : process < nprocs := hprocess ▸ Nat.mod_lt _ (by decide)
    exact iff_of_true ⟨hrun, d, hd, hprocess, hleast⟩ (.inl ⟨process, hlt, hrun, hlow⟩)

theorem picksBest_iff_start :
    ∃ m', schedulePriority startMachine = some m' ∧ PicksBest startMachine m'.current :=
  (picksBest_iff (by decide)).mpr (.inl ⟨2, by decide, rfl, by decide⟩)

/-- Every process takes the priority 200, and the last of them exits. -/
def highPriorities : List Call :=
  [.priority 200, .yield, .priority 200, .yield, .priority 200, .yield, .priority 200]

/-- The exited process is run again. -/
theorem highPriorities_not_picksBest :
    ∃ m m', runEvents (interrupt schedulePriority) highPriorities startMachine = some m ∧
      interrupt schedulePriority (.exit 0) m = some m' ∧
      (m'.procArray 1).state = .runnable ∧ (m'.procArray m'.current).state = .zombie ∧
      ¬ PicksBest ((Call.exit 0).enter m) m'.current := by
  refine ⟨_, _, rfl, rfl, rfl, rfl, ?_⟩
  rintro ⟨hrun, -⟩
  cases hrun

end Cs111Labs.Schedos
