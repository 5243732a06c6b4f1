import Mathlib.Tactic

/-!
# Proportional-share scheduling in SchedOS

`schedule()` with `scheduling_algorithm` 3.  A round of its loop looks at one
process; `run` does not return, and the process that it runs calls `schedule()`
again from an interrupt.
-/

namespace Cs111Labs.Schedos

/-- `NPROCS`; the descriptor 0 is not used. -/
def nprocs : Nat := 5

/-- `procstate_t` -/
inductive ProcState where
  | empty
  | runnable
  | blocked
  | zombie
  deriving DecidableEq, Repr

/-- The fields of `process_t` that the algorithm uses. -/
structure Process where
  state : ProcState
  share : Int
  counter : Int
  deriving DecidableEq, Repr

structure Kernel where
  /-- `current->p_pid` -/
  current : Nat
  procArray : Nat → Process

namespace Kernel

def setCounter (k : Kernel) (pid : Nat) (counter : Int) : Kernel where
  current := k.current
  procArray := Function.update k.procArray pid { k.procArray pid with counter := counter }

/-- `run(&proc_array[pid])` -/
def run (k : Kernel) (pid : Nat) : Kernel := { k with current := pid }

end Kernel

/-- The inner loop; `none` where it has not come to `run` after the given rounds. -/
def scan : Nat → Nat → Kernel → Option Kernel
  | 0, _, _ => none
  | rounds + 1, process, k =>
      let process := if process = 0 then (process + 1) % nprocs else process
      let proc := k.procArray process
      if proc.state = .runnable ∧ proc.counter < proc.share then
        some ((k.setCounter process (proc.counter + 1)).run process)
      else if proc.state = .runnable ∧ proc.counter = proc.share then
        scan rounds ((process + 1) % nprocs) (k.setCounter process 0)
      else scan rounds ((process + 1) % nprocs) k

/-- If any process can be run at all, this many rounds suffice. -/
def scanRounds : Nat := 2 * nprocs

def schedule (k : Kernel) : Option Kernel := scan scanRounds k.current k

/-- The processes that `calls` calls of `schedule()` run. -/
def dispatches : Nat → Kernel → Option (List Nat)
  | 0, _ => some []
  | calls + 1, k => do
      let k ← schedule k
      let rest ← dispatches calls k
      return k.current :: rest

/-! ## Blocks of dispatches -/

/-- The processes that stay runnable. -/
def Runs (k : Kernel) (pid : Nat) : Prop :=
  0 < pid ∧ pid < nprocs ∧ (k.procArray pid).state = .runnable

instance (k : Kernel) (pid : Nat) : Decidable (Runs k pid) :=
  inferInstanceAs (Decidable (_ ∧ _ ∧ _))

/-- The first runnable process at or after `pid` in cyclic order. -/
def firstFrom (k : Kernel) (pid : Nat) : Nat :=
  match (List.range nprocs).find? fun d => Runs k ((pid + d) % nprocs) with
  | some d => (pid + d) % nprocs
  | none => pid

/-- The next runnable process in cyclic order. -/
def nextPid (k : Kernel) (pid : Nat) : Nat := firstFrom k ((pid + 1) % nprocs)

/-- Complete blocks, one for each process in turn. -/
def blocks (share : Nat → Int) (next : Nat → Nat) : Nat → Nat → List Nat
  | 0, _ => []
  | n + 1, pid => List.replicate (share pid).toNat pid ++ blocks share next n (next pid)

/-- What is left of the current block, and the blocks after it. -/
def expected (k : Kernel) (n : Nat) : List Nat :=
  List.replicate ((k.procArray k.current).share - (k.procArray k.current).counter).toNat
      k.current ++
    blocks (fun pid => (k.procArray pid).share) (nextPid k) n (nextPid k k.current)

/-- The states the shares are delivered from. -/
structure Fair (k : Kernel) : Prop where
  current : Runs k k.current
  share_pos : ∀ pid, Runs k pid → 0 < (k.procArray pid).share
  counter_zero : ∀ pid, Runs k pid → pid ≠ k.current → (k.procArray pid).counter = 0
  counter_nonneg : 0 ≤ (k.procArray k.current).counter
  counter_le : (k.procArray k.current).counter ≤ (k.procArray k.current).share

/-! ## One call -/

section Counters

variable {k k' : Kernel} {pid i : Nat} {c : Int}

@[simp] theorem setCounter_current : (k.setCounter pid c).current = k.current := rfl

@[simp] theorem setCounter_state :
    ((k.setCounter pid c).procArray i).state = (k.procArray i).state := by
  by_cases hi : i = pid <;> simp [Kernel.setCounter, hi]

@[simp] theorem setCounter_share :
    ((k.setCounter pid c).procArray i).share = (k.procArray i).share := by
  by_cases hi : i = pid <;> simp [Kernel.setCounter, hi]

theorem setCounter_counter : ((k.setCounter pid c).procArray i).counter =
    if i = pid then c else (k.procArray i).counter := by
  by_cases hi : i = pid <;> simp [Kernel.setCounter, hi]

@[simp] theorem run_current : (k.run pid).current = pid := rfl

@[simp] theorem run_procArray : (k.run pid).procArray = k.procArray := rfl

theorem runs_congr (h : (k'.procArray i).state = (k.procArray i).state) :
    Runs k' i ↔ Runs k i := by
  unfold Runs
  rw [h]

theorem nextPid_congr (h : ∀ i, (k'.procArray i).state = (k.procArray i).state) :
    nextPid k' pid = nextPid k pid := by
  unfold nextPid firstFrom
  simp only [fun i => runs_congr (h i)]

end Counters

section Calls

variable {k : Kernel} {pid : Nat}

theorem firstFrom_spec (hpid : pid < nprocs) {i : Nat} (hi : Runs k i) :
    ∃ d < nprocs, firstFrom k pid = (pid + d) % nprocs ∧ Runs k (firstFrom k pid) ∧
      ∀ e < d, ¬ Runs k ((pid + e) % nprocs) := by
  unfold firstFrom
  cases hfind : (List.range nprocs).find? fun d => Runs k ((pid + d) % nprocs) with
  | none =>
      have hnone := List.find?_eq_none.1 hfind ((i + nprocs - pid) % nprocs)
        (List.mem_range.2 (Nat.mod_lt _ (by decide)))
      have hindex : (pid + (i + nprocs - pid) % nprocs) % nprocs = i := by
        have hlt := hi.2.1
        rw [Nat.add_mod_mod]
        unfold nprocs at *
        omega
      simp [hindex, hi] at hnone
  | some d =>
      obtain ⟨hruns, hd, hfirst⟩ := List.find?_range_eq_some.1 hfind
      refine ⟨d, List.mem_range.1 hd, rfl, of_decide_eq_true hruns, fun e he => ?_⟩
      simpa using hfirst e he

theorem nextPid_runs (pid : Nat) {i : Nat} (hi : Runs k i) : Runs k (nextPid k pid) := by
  obtain ⟨_, _, _, hruns, _⟩ := firstFrom_spec (k := k)
    (Nat.mod_lt (pid + 1) (by decide : 0 < nprocs)) hi
  exact hruns

theorem scan_zero (rounds : Nat) : scan rounds 0 k = scan rounds 1 k := by
  cases rounds <;> rfl

/-- The scan comes to the first process that may run. -/
theorem scan_first (hidle : ∀ i, Runs k i →
      (k.procArray i).counter = 0 ∧ 0 < (k.procArray i).share)
    (d rounds : Nat) (hpid : pid < nprocs) (hd : d < rounds)
    (hskip : ∀ e < d, ¬ Runs k ((pid + e) % nprocs)) {i : Nat}
    (hi : (pid + d) % nprocs = i) (hruns : Runs k i) :
    scan rounds pid k = some ((k.setCounter i 1).run i) := by
  obtain ⟨rounds, rfl⟩ := Nat.exists_eq_succ_of_ne_zero (Nat.ne_of_gt (Nat.zero_lt_of_lt hd))
  induction d generalizing pid rounds with
  | zero =>
      rw [Nat.add_zero, Nat.mod_eq_of_lt hpid] at hi
      subst hi
      obtain ⟨hpos, hlt, hstate⟩ := hruns
      obtain ⟨hcounter, hshare⟩ := hidle pid ⟨hpos, hlt, hstate⟩
      rw [scan, if_neg hpos.ne']
      rw [if_pos ⟨hstate, hcounter ▸ hshare⟩, hcounter]
      rfl
  | succ d ih =>
      have hhere : ¬ Runs k pid := by
        have hfirst := hskip 0 (Nat.succ_pos d)
        rwa [Nat.add_zero, Nat.mod_eq_of_lt hpid] at hfirst
      by_cases hzero : pid = 0
      · subst hzero
        rw [scan_zero]
        refine ih (by decide) (fun e he => ?_) ?_ rounds (by omega)
        · have hnext := hskip (e + 1) (by omega)
          rwa [show 0 + (e + 1) = 1 + e by omega] at hnext
        · rw [← hi]
          congr 1
          omega
      · have hstate : (k.procArray pid).state ≠ .runnable := fun hstate =>
          hhere ⟨Nat.pos_of_ne_zero hzero, hpid, hstate⟩
        obtain ⟨rounds, rfl⟩ := Nat.exists_eq_succ_of_ne_zero (n := rounds) (by omega)
        rw [scan, if_neg hzero]
        rw [if_neg fun h => hstate h.1, if_neg fun h => hstate h.1]
        refine ih (Nat.mod_lt _ (by decide)) (fun e he => ?_) ?_ rounds (by omega)
        · have hnext := hskip (e + 1) (by omega)
          rwa [Nat.mod_add_mod, show pid + 1 + e = pid + (e + 1) by omega]
        · rw [Nat.mod_add_mod, ← hi]
          congr 1
          omega

/-- The current process goes on with its block. -/
theorem schedule_of_lt (h : Fair k)
    (hlt : (k.procArray k.current).counter < (k.procArray k.current).share) :
    schedule k =
      some ((k.setCounter k.current ((k.procArray k.current).counter + 1)).run k.current) := by
  obtain ⟨hpos, -, hstate⟩ := h.current
  unfold schedule scanRounds
  rw [show 2 * nprocs = 9 + 1 from rfl, scan, if_neg hpos.ne']
  rw [if_pos ⟨hstate, hlt⟩]

/-- After a complete block comes the next process. -/
theorem schedule_of_eq (h : Fair k)
    (heq : (k.procArray k.current).counter = (k.procArray k.current).share) :
    schedule k = some (((k.setCounter k.current 0).setCounter (nextPid k k.current) 1).run
      (nextPid k k.current)) := by
  obtain ⟨hpos, -, hstate⟩ := h.current
  have hruns : ∀ i, Runs (k.setCounter k.current 0) i ↔ Runs k i :=
    fun i => runs_congr setCounter_state
  have hnext : nextPid (k.setCounter k.current 0) k.current = nextPid k k.current :=
    nextPid_congr fun i => setCounter_state
  obtain ⟨d, hd, hindex, hfirst, hskip⟩ := firstFrom_spec (k := k.setCounter k.current 0)
    (Nat.mod_lt (k.current + 1) (by decide : 0 < nprocs)) ((hruns _).2 h.current)
  rw [← hnext]
  unfold schedule scanRounds
  rw [show 2 * nprocs = 9 + 1 from rfl, scan, if_neg hpos.ne']
  rw [if_neg (fun hlt => hlt.2.ne heq), if_pos ⟨hstate, heq⟩]
  refine scan_first (fun i hi => ?_) d 9 (Nat.mod_lt _ (by decide))
    (by unfold nprocs at hd; omega) hskip hindex.symm hfirst
  rw [setCounter_counter, setCounter_share]
  refine ⟨?_, h.share_pos i ((hruns i).1 hi)⟩
  split_ifs with hcurrent
  · rfl
  · exact h.counter_zero i ((hruns i).1 hi) hcurrent

/-! ## Every run -/

theorem Fair.run_lt (h : Fair k)
    (hlt : (k.procArray k.current).counter < (k.procArray k.current).share) :
    Fair ((k.setCounter k.current ((k.procArray k.current).counter + 1)).run k.current) where
  current := (runs_congr setCounter_state).2 h.current
  share_pos i hi := by
    have hshare := h.share_pos i ((runs_congr setCounter_state).1 hi)
    simpa using hshare
  counter_zero i hi hne := by
    simp only [run_procArray, setCounter_counter, run_current] at hne ⊢
    rw [if_neg hne]
    exact h.counter_zero i ((runs_congr setCounter_state).1 hi) hne
  counter_nonneg := by
    have hnonneg := h.counter_nonneg
    simp only [run_procArray, run_current, setCounter_counter, if_true]
    omega
  counter_le := by
    simp only [run_procArray, run_current, setCounter_counter, setCounter_share, if_true]
    omega

theorem Fair.run_eq (h : Fair k) :
    Fair (((k.setCounter k.current 0).setCounter (nextPid k k.current) 1).run
      (nextPid k k.current)) where
  current := by
    refine (runs_congr ?_).2 (nextPid_runs _ h.current)
    simp
  share_pos i hi := by
    have hshare := h.share_pos i ((runs_congr (by simp)).1 hi)
    simpa using hshare
  counter_zero i hi hne := by
    simp only [run_procArray, setCounter_counter, run_current] at hne ⊢
    rw [if_neg hne]
    split_ifs with hcurrent
    · rfl
    · exact h.counter_zero i ((runs_congr (by simp)).1 hi) hcurrent
  counter_nonneg := by
    simp only [run_procArray, run_current, setCounter_counter, if_true]
    decide
  counter_le := by
    have hshare := h.share_pos _ (nextPid_runs k.current h.current)
    simp only [run_procArray, run_current, setCounter_counter, setCounter_share, if_true]
    omega

theorem length_blocks {share : Nat → Int} {next : Nat → Nat} (P : Nat → Prop)
    (hshare : ∀ i, P i → 0 < share i) (hnext : ∀ i, P i → P (next i)) (n : Nat)
    (hpid : P pid) : n ≤ (blocks share next n pid).length := by
  induction n generalizing pid with
  | zero => exact Nat.zero_le _
  | succ n ih =>
      have hpos := hshare pid hpid
      have hrest := ih (hnext pid hpid)
      rw [blocks, List.length_append, List.length_replicate]
      omega

theorem blocks_prefix (share : Nat → Int) (next : Nat → Nat) (n : Nat) :
    blocks share next n pid <+: blocks share next (n + 1) pid := by
  induction n generalizing pid with
  | zero => exact List.nil_prefix
  | succ n ih => exact (List.prefix_append_right_inj _).2 ih

theorem expected_length (h : Fair k) (n : Nat) : n ≤ (expected k n).length := by
  have hnext : ∀ i, Runs k i → Runs k (nextPid k i) := fun i hi => nextPid_runs _ hi
  have hblocks := length_blocks (Runs k) h.share_pos hnext n
    (nextPid_runs k.current h.current)
  rw [expected, List.length_append]
  omega

/-- The first process is run, and the rest is expected of the state after it. -/
theorem expected_step (h : Fair k) (n : Nat) :
    ∃ k', schedule k = some k' ∧ Fair k' ∧
      (expected k (n + 1)).take (n + 1) = k'.current :: (expected k' n).take n := by
  rcases h.counter_le.lt_or_eq with hlt | heq
  · refine ⟨_, schedule_of_lt h hlt, h.run_lt hlt, ?_⟩
    have hfair := h.run_lt hlt
    set k' := (k.setCounter k.current ((k.procArray k.current).counter + 1)).run k.current
      with hk'
    have hshare : (fun i => (k'.procArray i).share) = fun i => (k.procArray i).share := by
      funext i
      simp [hk']
    have hnext : nextPid k' = nextPid k := by
      funext i
      exact nextPid_congr (by simp [hk'])
    have hfirst : expected k (n + 1) = k.current ::
        (List.replicate ((k'.procArray k'.current).share -
            (k'.procArray k'.current).counter).toNat k'.current ++
          blocks (fun i => (k'.procArray i).share) (nextPid k') (n + 1)
            (nextPid k' k'.current)) := by
      have hcount : ((k.procArray k.current).share - (k.procArray k.current).counter).toNat =
          ((k.procArray k.current).share - ((k.procArray k.current).counter + 1)).toNat + 1 := by
        omega
      rw [hshare, hnext, expected, hcount, List.replicate_succ]
      simp [hk', setCounter_counter]
    have hprefix : expected k' n <+: List.replicate ((k'.procArray k'.current).share -
          (k'.procArray k'.current).counter).toNat k'.current ++
        blocks (fun i => (k'.procArray i).share) (nextPid k') (n + 1)
          (nextPid k' k'.current) :=
      (List.prefix_append_right_inj _).2 ( blocks_prefix _ _ n)
    rw [hfirst, List.take_succ_cons]
    congr 1
    obtain ⟨rest, hrest⟩ := hprefix
    rw [← hrest, List.take_append_of_le_length (expected_length hfair n)]
  · refine ⟨_, schedule_of_eq h heq, h.run_eq, ?_⟩
    set k' := ((k.setCounter k.current 0).setCounter (nextPid k k.current) 1).run
      (nextPid k k.current) with hk'
    have hshare : (fun i => (k'.procArray i).share) = fun i => (k.procArray i).share := by
      funext i
      simp [hk']
    have hnext : nextPid k' = nextPid k := by
      funext i
      exact nextPid_congr (by simp [hk'])
    have hpos := h.share_pos _ (nextPid_runs k.current h.current)
    have hcount : (k.procArray (nextPid k k.current)).share.toNat =
        ((k.procArray (nextPid k k.current)).share - 1).toNat + 1 := by
      omega
    have hfirst : expected k (n + 1) = k'.current :: expected k' n := by
      rw [expected, expected, hshare, hnext, blocks, hcount, List.replicate_succ, heq]
      simp [hk', setCounter_counter]
    rw [hfirst, List.take_succ_cons]

/--
Any number of calls run the rest of the current block and then complete blocks
of the runnable processes, in cyclic order and as long as their shares.
-/
theorem dispatches_eq_expected (h : Fair k) (calls : Nat) :
    dispatches calls k = some ((expected k calls).take calls) := by
  induction calls generalizing k with
  | zero => rfl
  | succ calls ih =>
      obtain ⟨k', hschedule, hfair, htake⟩ := expected_step h calls
      simp [dispatches, hschedule, ih hfair, htake]

end Calls

/-- The processes as `start` leaves them: `SHARE_i` is `i`, and `COUNTER_1` is 1. -/
def started : Kernel where
  current := 1
  procArray i := ⟨if i = 0 then .empty else .runnable, i, if i = 1 then 1 else 0⟩

theorem started_fair : Fair started where
  current := by decide
  share_pos i hi := Int.natCast_pos.2 hi.1
  counter_zero i _ hne := if_neg hne
  counter_nonneg := by decide
  counter_le := by decide

theorem dispatches_eq_expected_started :
    dispatches 10 started = some [2, 2, 3, 3, 3, 4, 4, 4, 4, 1] :=
  (dispatches_eq_expected started_fair 10).trans (by decide)

end Cs111Labs.Schedos
