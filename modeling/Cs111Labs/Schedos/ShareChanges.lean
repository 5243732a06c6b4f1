import Cs111Labs.Foundation.Dispatches
import Cs111Labs.Schedos.Interrupts

/-!
# Proportional shares that change

`schedule()` with `scheduling_algorithm` 3, where the current process may change
its share between its dispatches.
-/

namespace Cs111Labs.Schedos

open Foundation

def scheduleShares (m : Machine) : Option Machine :=
  (schedule m.toKernel).map fun k => { m with toKernel := k }

/-- Every share that is set is positive. -/
def PositiveShare (call : Call) (_ : Machine) : Prop :=
  ∀ eax, call = .share eax → 0 < eax.toInt

/-- A process yields with a share that is not below its counter. -/
def CounterInShare (call : Call) (m : Machine) : Prop :=
  call = .yield →
    (m.procArray m.current).counter ≤ (m.procArray m.current).share

/--
Where a process is runnable the loop comes to `run`, and a process that stays
runnable while the shares stay the same is dispatched among as many consecutive
dispatches as the shares add up to.
-/
def Unstarved (allowed : Call → Machine → Prop) (seen : List Machine) (m : Machine) :
    Prop :=
  (∀ call : Call, allowed call m → call.Schedules →
    (∃ i, Runs (call.enter m).toKernel i) →
    ∃ rounds k, scan rounds (call.enter m).current (call.enter m).toKernel = some k) ∧
  ∀ window, window <:+: seen → ∀ i, (∀ k ∈ window, Runs k.toKernel i) →
    ∀ shares : Nat → Int,
      (∀ pid, 0 < pid → pid < nprocs → 0 < shares pid ∧
        ∀ k ∈ window, (k.procArray pid).share = shares pid) →
      shares 1 + shares 2 + shares 3 + shares 4 ≤ window.length →
      ∃ k ∈ window, k.current = i

def NeverStarves (allowed : Call → Machine → Prop) : Prop :=
  ∀ seen m,
    Dispatched (interrupt scheduleShares) allowed Call.Schedules startMachine seen m →
    Unstarved allowed seen m

/-! ## One call of schedule -/

/-- The states between two calls of `schedule()`. -/
structure Kept (k : Kernel) : Prop where
  current : Runs k k.current
  share_pos : ∀ pid, Runs k pid → 0 < (k.procArray pid).share
  counter_zero : ∀ pid, Runs k pid → pid ≠ k.current → (k.procArray pid).counter = 0
  counter_pos : 0 < (k.procArray k.current).counter

/-- The states in which `schedule()` is called: the current process may have
exited. -/
structure Ready (k : Kernel) : Prop where
  current_pos : 0 < k.current
  current_lt : k.current < nprocs
  share_pos : ∀ pid, Runs k pid → 0 < (k.procArray pid).share
  counter_zero : ∀ pid, Runs k pid → pid ≠ k.current → (k.procArray pid).counter = 0
  counter_pos : 0 < (k.procArray k.current).counter
  counter_le : Runs k k.current →
    (k.procArray k.current).counter ≤ (k.procArray k.current).share

/-- What a call of `schedule()` does to `k`. -/
structure Scheduled (k k' : Kernel) : Prop where
  kept : Kept k'
  state : ∀ pid, (k'.procArray pid).state = (k.procArray pid).state
  share : ∀ pid, (k'.procArray pid).share = (k.procArray pid).share
  turn : (k'.current = k.current ∧
      (k.procArray k.current).counter < (k.procArray k.current).share ∧
      (k'.procArray k'.current).counter = (k.procArray k.current).counter + 1) ∨
    (k'.current = nextPid k k.current ∧ (k'.procArray k'.current).counter = 1)

section Calls

variable {k k' : Kernel}

/-- The states, the shares and the counters of the processes that do not run
decide whether the state is kept. -/
theorem Scheduled.of_move (h : Ready k) {i : Nat} (hi : Runs k i)
    (hcurrent : k'.current = nextPid k k.current)
    (hstate : ∀ pid, (k'.procArray pid).state = (k.procArray pid).state)
    (hshare : ∀ pid, (k'.procArray pid).share = (k.procArray pid).share)
    (hcounter : (k'.procArray k'.current).counter = 1)
    (hzero : ∀ pid, Runs k pid → pid ≠ k'.current → (k'.procArray pid).counter = 0) :
    Scheduled k k' where
  kept :=
    { current := by
        rw [runs_congr (hstate _), hcurrent]
        exact nextPid_runs k.current hi
      share_pos := fun pid hpid => by
        rw [hshare]
        exact h.share_pos pid ((runs_congr (hstate pid)).mp hpid)
      counter_zero := fun pid hpid => hzero pid ((runs_congr (hstate pid)).mp hpid)
      counter_pos := by
        rw [hcounter]
        decide }
  state := hstate
  share := hshare
  turn := .inr ⟨hcurrent, hcounter⟩

/-- The current process has exited: the scan starts after it. -/
theorem schedule_of_exited (h : Ready k) (hexited : ¬ Runs k k.current) {i : Nat}
    (hi : Runs k i) :
    schedule k = some ((k.setCounter (nextPid k k.current) 1).run (nextPid k k.current)) := by
  have hstate : (k.procArray k.current).state ≠ .runnable := fun hstate =>
    hexited ⟨h.current_pos, h.current_lt, hstate⟩
  obtain ⟨d, hd, hindex, hfirst, hskip⟩ := firstFrom_spec
    (Nat.mod_lt (k.current + 1) (by decide : 0 < nprocs)) hi
  unfold schedule scanRounds
  rw [show 2 * nprocs = 9 + 1 from rfl, scan, if_neg h.current_pos.ne']
  rw [if_neg fun hruns => hstate hruns.1, if_neg fun hruns => hstate hruns.1]
  apply scan_first _ d 9 (Nat.mod_lt _ (by decide)) (by unfold nprocs at hd; omega) hskip
    hindex.symm hfirst
  intro pid hpid
  have hne : pid ≠ k.current := fun heq => hexited (heq ▸ hpid)
  exact ⟨h.counter_zero pid hpid hne, h.share_pos pid hpid⟩

theorem Ready.fair (h : Ready k) (hruns : Runs k k.current) : Fair k where
  current := hruns
  share_pos := h.share_pos
  counter_zero := h.counter_zero
  counter_nonneg := h.counter_pos.le
  counter_le := h.counter_le hruns

theorem Ready.exists_scheduled (h : Ready k) {i : Nat} (hi : Runs k i) :
    ∃ k', schedule k = some k' ∧ Scheduled k k' := by
  by_cases hruns : Runs k k.current
  · rcases (h.counter_le hruns).lt_or_eq with hlt | heq
    · refine ⟨_, schedule_of_lt (h.fair hruns) hlt, ?_⟩
      have hfair := (h.fair hruns).run_lt hlt
      have hpos := h.counter_pos
      exact {
        kept :=
          { current := hfair.current
            share_pos := hfair.share_pos
            counter_zero := hfair.counter_zero
            counter_pos := by
              simp only [run_procArray, run_current, setCounter_counter, if_true]
              omega }
        state := by simp
        share := by simp
        turn := .inl ⟨rfl, hlt, by simp [setCounter_counter]⟩ }
    · refine ⟨_, schedule_of_eq (h.fair hruns) heq, ?_⟩
      apply Scheduled.of_move h hi
      · rfl
      · simp
      · simp
      · simp [setCounter_counter]
      · intro pid hpid hne
        rw [run_current] at hne
        rw [run_procArray, setCounter_counter, if_neg hne, setCounter_counter]
        split_ifs with hcurrent
        · rfl
        · exact h.counter_zero pid hpid hcurrent
  · refine ⟨_, schedule_of_exited h hruns hi, ?_⟩
    apply Scheduled.of_move h hi
    · rfl
    · simp
    · simp
    · simp [setCounter_counter]
    · intro pid hpid hne
      rw [run_current] at hne
      rw [run_procArray, setCounter_counter, if_neg hne]
      exact h.counter_zero pid hpid fun heq => hruns (heq ▸ hpid)

/-- With no runnable process the loop never comes to `run`. -/
theorem scan_none (hstuck : ∀ pid, Runs k pid →
      (k.procArray pid).share < (k.procArray pid).counter)
    (rounds : Nat) {process : Nat} (hprocess : process < nprocs) :
    scan rounds process k = none := by
  induction rounds generalizing process with
  | zero => rfl
  | succ rounds ih =>
      set next := if process = 0 then (process + 1) % nprocs else process with hnext
      have hpos : 0 < next := by
        rw [hnext]
        split_ifs with hzero
        · subst hzero
          decide
        · exact Nat.pos_of_ne_zero hzero
      have hlt : next < nprocs := by
        rw [hnext]
        split_ifs
        · exact Nat.mod_lt _ (by decide)
        · exact hprocess
      have hhigh : (k.procArray next).state = .runnable →
          (k.procArray next).share < (k.procArray next).counter :=
        fun hstate => hstuck next ⟨hpos, hlt, hstate⟩
      rw [scan]
      simp only [← hnext]
      rw [if_neg fun hruns => absurd (hhigh hruns.1) (by omega)]
      rw [if_neg fun hruns => absurd (hhigh hruns.1) (by omega)]
      exact ih (Nat.mod_lt _ (by decide))

end Calls

/-! ## The turns before a process -/

/-- The turns of a process with this share. -/
def turns (shares : Nat → Int) (pid : Nat) : Nat :=
  if pid = 0 then 0 else (shares pid).toNat

/-- How many dispatches can come before one of `i`: the rest of the current block,
and the blocks of the processes between. -/
def turnsBefore (shares : Nat → Int) (i : Nat) (k : Kernel) : Nat :=
  (shares k.current - (k.procArray k.current).counter).toNat +
    ∑ e ∈ Finset.Ico 1 ((i + nprocs - k.current) % nprocs),
      turns shares ((k.current + e) % nprocs)

section Turns

variable {shares : Nat → Int} {i : Nat} {k k' : Kernel}

theorem turnsBefore_lt (hshares : ∀ pid, 0 < pid → pid < nprocs → 0 < shares pid)
    (hkept : Kept k) (hi : Runs k i) (hne : k.current ≠ i) :
    (turnsBefore shares i k : Int) <
      shares 1 + shares 2 + shares 3 + shares 4 - 1 := by
  obtain ⟨hcurrent, hcurrentLt, -⟩ := hkept.current
  obtain ⟨hpos, hlt, -⟩ := hi
  have hcounter := hkept.counter_pos
  have h1 := hshares 1 (by decide) (by decide)
  have h2 := hshares 2 (by decide) (by decide)
  have h3 := hshares 3 (by decide) (by decide)
  have h4 := hshares 4 (by decide) (by decide)
  unfold turnsBefore nprocs at *
  generalize (k.procArray k.current).counter = counter at *
  generalize k.current = current at *
  interval_cases current <;> interval_cases i <;>
    simp [turns, Finset.sum_Ico_succ_top] at hne ⊢ <;> omega

/-- A dispatch of another process comes closer to `i`. -/
theorem Scheduled.turnsBefore_lower
    (hshares : ∀ pid, 0 < pid → pid < nprocs → 0 < shares pid) (h : Scheduled k k')
    (hshare : ∀ pid, 0 < pid → pid < nprocs → (k'.procArray pid).share = shares pid)
    (hcurrent : 0 < k.current) (hcurrentLt : k.current < nprocs) (hi : Runs k' i)
    (hne : k.current ≠ i) (hnext : k'.current ≠ i) :
    turnsBefore shares i k' < turnsBefore shares i k := by
  rcases h.turn with ⟨hsame, hlt, hcounter⟩ | ⟨hmove, hcounter⟩
  · have hown := hshare k.current hcurrent hcurrentLt
    rw [h.share] at hown
    rw [hown] at hlt
    unfold turnsBefore
    rw [hcounter, hsame]
    omega
  · have hruns : Runs k i := (runs_congr (h.state i)).mp hi
    obtain ⟨d, hd, hindex, -, hskip⟩ := firstFrom_spec
      (Nat.mod_lt (k.current + 1) (by decide : 0 < nprocs)) hruns
    have hplace : k'.current = (k.current + (d + 1)) % nprocs := by
      rw [hmove, nextPid, hindex, Nat.mod_add_mod]
      congr 1
      omega
    set D := (i + nprocs - k.current) % nprocs with hD
    have hfar : d + 1 < D := by
      by_contra hnear
      have hpos := hi.1
      have hlt := hi.2.1
      have hD_pos : 0 < D := by
        unfold nprocs at *
        omega
      obtain hhere | hbefore : D = d + 1 ∨ D - 1 < d := by omega
      · apply hnext
        rw [hplace, ← hhere, hD]
        unfold nprocs at *
        omega
      · apply hskip (D - 1) hbefore
        have hself : ((k.current + 1) % nprocs + (D - 1)) % nprocs = i := by
          unfold nprocs at *
          omega
        rwa [hself]
    have hD' : (i + nprocs - k'.current) % nprocs = D - (d + 1) := by
      have hlt := hi.2.1
      unfold nprocs at *
      omega
    have hown : 0 < k'.current ∧ k'.current < nprocs :=
      ⟨h.kept.current.1, h.kept.current.2.1⟩
    have hturns : turns shares k'.current = (shares k'.current).toNat :=
      if_neg hown.1.ne'
    have hpos := hshares k'.current hown.1 hown.2
    have hshift : ∑ e ∈ Finset.Ico 1 (D - (d + 1)), turns shares ((k'.current + e) % nprocs) =
        ∑ e ∈ Finset.Ico (d + 2) D, turns shares ((k.current + e) % nprocs) := by
      have hends : Finset.Ico (d + 2) D =
          Finset.Ico (1 + (d + 1)) (D - (d + 1) + (d + 1)) := by
        congr 1 <;> omega
      rw [hends, ← Finset.sum_Ico_add']
      apply Finset.sum_congr rfl
      intro e _
      rw [hplace, Nat.mod_add_mod]
      congr 2
      omega
    have hsum : turns shares k'.current +
          ∑ e ∈ Finset.Ico (d + 2) D, turns shares ((k.current + e) % nprocs) ≤
        ∑ e ∈ Finset.Ico 1 D, turns shares ((k.current + e) % nprocs) := by
      calc turns shares k'.current +
            ∑ e ∈ Finset.Ico (d + 2) D, turns shares ((k.current + e) % nprocs)
          = ∑ e ∈ Finset.Ico (d + 1) D, turns shares ((k.current + e) % nprocs) := by
            rw [Finset.sum_eq_sum_Ico_succ_bot hfar, hplace]
        _ ≤ ∑ e ∈ Finset.Ico 1 D, turns shares ((k.current + e) % nprocs) := by
            apply Finset.sum_le_sum_of_subset
            exact Finset.Ico_subset_Ico_left (by omega)
    unfold turnsBefore
    rw [hcounter, hD', hshift, ← hD]
    omega

end Turns

/-! ## Every run -/

/-- The calls that starve nobody. -/
def Harmless (call : Call) (m : Machine) : Prop :=
  PositiveShare call m ∧ CounterInShare call m

section Runs

variable {call : Call} {m m' : Machine}

theorem enter_ready (hkept : Kept m.toKernel) (hcall : CounterInShare call m)
    (hschedules : call.Schedules) : Ready (call.enter m).toKernel := by
  cases call with
  | yield =>
      exact {
        current_pos := hkept.current.1
        current_lt := hkept.current.2.1
        share_pos := hkept.share_pos
        counter_zero := hkept.counter_zero
        counter_pos := hkept.counter_pos
        counter_le := fun _ => hcall rfl }
  | exit eax =>
      -- The exited process keeps its counter, but it is not runnable any more.
      have hruns : ∀ pid, Runs ((Call.exit eax).enter m).toKernel pid →
          pid ≠ m.current ∧ Runs m.toKernel pid := by
        rintro pid ⟨hpos, hlt, hstate⟩
        obtain rfl | hne := eq_or_ne pid m.current
        · simp [Call.enter] at hstate
        · simp only [Call.enter, Function.update_of_ne hne] at hstate
          exact ⟨hne, hpos, hlt, hstate⟩
      exact {
        current_pos := hkept.current.1
        current_lt := hkept.current.2.1
        share_pos := fun pid hpid => by
          obtain ⟨hne, hold⟩ := hruns pid hpid
          simp only [Call.enter, Function.update_of_ne hne]
          exact hkept.share_pos pid hold
        counter_zero := fun pid hpid _ => by
          obtain ⟨hne, hold⟩ := hruns pid hpid
          simp only [Call.enter, Function.update_of_ne hne]
          exact hkept.counter_zero pid hold hne
        counter_pos := by
          simp only [Call.enter, Function.update_self]
          exact hkept.counter_pos
        counter_le := fun hpid => absurd rfl (hruns _ hpid).1 }
  | priority eax => exact hschedules.elim
  | share eax => exact hschedules.elim

@[simp] theorem enter_current (call : Call) (m : Machine) :
    (call.enter m).current = m.current := by
  cases call <;> rfl

@[simp] theorem enter_counter (call : Call) (m : Machine) (pid : Nat) :
    ((call.enter m).procArray pid).counter = (m.procArray pid).counter := by
  cases call <;> by_cases hpid : pid = m.current <;> simp [Call.enter, hpid]

theorem schedule_eq_none (k : Kernel) (hcurrent : k.current < nprocs)
    (hnone : ¬ ∃ i, Runs k i) : schedule k = none :=
  scan_none (fun pid hpid => absurd ⟨pid, hpid⟩ hnone) scanRounds hcurrent

/-- A call that ends in `schedule()`. -/
theorem interrupt_scheduled (hkept : Kept m.toKernel) (hcall : CounterInShare call m)
    (hschedules : call.Schedules) (hstep : interrupt scheduleShares call m = some m') :
    Scheduled (call.enter m).toKernel m'.toKernel := by
  have hready := enter_ready hkept hcall hschedules
  rw [interrupt, if_pos hschedules, scheduleShares] at hstep
  obtain ⟨k, hk, rfl⟩ := Option.map_eq_some_iff.mp hstep
  by_cases hruns : ∃ i, Runs (call.enter m).toKernel i
  · obtain ⟨i, hi⟩ := hruns
    obtain ⟨k', hk', hscheduled⟩ := hready.exists_scheduled hi
    obtain rfl := Option.some.inj (hk.symm.trans hk')
    exact hscheduled
  · rw [schedule_eq_none _ hready.current_lt hruns] at hk
    cases hk

/-- A call that goes on with the current process. -/
theorem interrupt_other (hschedules : ¬ call.Schedules)
    (hstep : interrupt scheduleShares call m = some m') :
    m'.current = m.current ∧
      ∀ pid, (m'.procArray pid).state = (m.procArray pid).state ∧
        (m'.procArray pid).counter = (m.procArray pid).counter := by
  rw [interrupt, if_neg hschedules] at hstep
  obtain rfl := Option.some.inj hstep
  cases call with
  | yield => exact absurd trivial hschedules
  | exit eax => exact absurd trivial hschedules
  | priority eax => exact ⟨rfl, fun _ => ⟨rfl, rfl⟩⟩
  | share eax =>
      refine ⟨rfl, fun pid => ?_⟩
      by_cases hpid : pid = m.current <;> simp [Call.enter, hpid]

theorem interrupt_kept (hkept : Kept m.toKernel) (hcall : Harmless call m)
    (hstep : interrupt scheduleShares call m = some m') : Kept m'.toKernel := by
  by_cases hschedules : call.Schedules
  · exact (interrupt_scheduled hkept hcall.2 hschedules hstep).kept
  · obtain ⟨hcurrent, hsame⟩ := interrupt_other hschedules hstep
    have hruns : ∀ pid, Runs m'.toKernel pid ↔ Runs m.toKernel pid :=
      fun pid => runs_congr (hsame pid).1
    exact {
      current := by
        rw [hruns, hcurrent]
        exact hkept.current
      share_pos := fun pid hpid => by
        have hold := hkept.share_pos pid ((hruns pid).mp hpid)
        rw [interrupt, if_neg hschedules] at hstep
        obtain rfl := Option.some.inj hstep
        cases call with
        | yield => exact hold
        | exit eax => exact absurd trivial hschedules
        | priority eax => exact hold
        | share eax =>
            have hpos := hcall.1 eax rfl
            by_cases hpid : pid = m.current <;> simp [Call.enter, hpid, hpos, hold]
      counter_zero := fun pid hpid hne => by
        rw [(hsame pid).2]
        exact hkept.counter_zero pid ((hruns pid).mp hpid) (hcurrent ▸ hne)
      counter_pos := by
        rw [hcurrent, (hsame _).2]
        exact hkept.counter_pos }

theorem kept_of_reaches
    (h : Reaches (interrupt scheduleShares) Harmless startMachine m) : Kept m.toKernel := by
  apply Reaches.invariant _ _ h
  · exact
      { current := started_fair.current
        share_pos := started_fair.share_pos
        counter_zero := started_fair.counter_zero
        counter_pos := by decide }
  · exact fun call m m' hkept hcall hstep => interrupt_kept hkept hcall hstep

end Runs

/-- No process is starved in the runs in which a process that yields has a share
not below its counter. -/
theorem unstarved_of_harmless {seen : List Machine} {m : Machine}
    (h : Dispatched (interrupt scheduleShares) Harmless Call.Schedules startMachine seen m) :
    Unstarved Harmless seen m := by
  constructor
  · intro call hcall hschedules ⟨i, hi⟩
    have hready := enter_ready (kept_of_reaches h.reaches) hcall.2 hschedules
    obtain ⟨k, hk, -⟩ := hready.exists_scheduled hi
    exact ⟨scanRounds, k, hk⟩
  · intro window hwindow i hstays shares hshares hlength
    by_contra hnever
    push Not at hnever
    have hkept : ∀ k ∈ window, Kept k.toKernel := fun k hk =>
      h.forall_mem (fun call s s' hreaches hcall _ hstep =>
        kept_of_reaches (hreaches.next call hcall hstep)) k (hwindow.subset hk)
    have hpos : ∀ pid, 0 < pid → pid < nprocs → 0 < shares pid :=
      fun pid hpid hlt => (hshares pid hpid hlt).1
    obtain ⟨hchain, -⟩ := h.isChain
      (fun k s => s.current = k.current ∧
        ∀ pid, (s.procArray pid).counter = (k.procArray pid).counter)
      (fun _ _ => ⟨rfl, fun _ => rfl⟩)
      (fun call k s s' _ hlink _ hschedules hstep => by
        obtain ⟨hcurrent, hsame⟩ := interrupt_other hschedules hstep
        exact ⟨hcurrent.trans hlink.1, fun pid => (hsame pid).2.trans (hlink.2 pid)⟩)
    have hlinked := List.IsChain.infix hchain hwindow
    have hbound := length_le_of_rank (fun k => turnsBefore shares i k.toKernel)
      (shares 1 + shares 2 + shares 3 + shares 4 - 1).toNat hlinked ?_ ?_
    · have h1 := hpos 1 (by decide) (by decide)
      have h2 := hpos 2 (by decide) (by decide)
      have h3 := hpos 3 (by decide) (by decide)
      have h4 := hpos 4 (by decide) (by decide)
      omega
    · rintro newer hnewer older holder ⟨s, call, hreaches, hlink, hcall, hschedules, hstep⟩
      have hscheduled :=
        interrupt_scheduled (kept_of_reaches hreaches) hcall.2 hschedules hstep
      have hcurrent : (call.enter s).current = older.current :=
        (enter_current call s).trans hlink.1
      have hsame : turnsBefore shares i (call.enter s).toKernel =
          turnsBefore shares i older.toKernel := by
        rw [turnsBefore, turnsBefore, hcurrent, enter_counter, hlink.2]
      have holdest := (hkept older holder).current
      rw [← hsame]
      apply hscheduled.turnsBefore_lower hpos
      · exact fun pid hpid hlt => (hshares pid hpid hlt).2 newer hnewer
      · exact hcurrent ▸ holdest.1
      · exact hcurrent ▸ holdest.2.1
      · exact hstays newer hnewer
      · exact hcurrent ▸ hnever older holder
      · exact hnever newer hnewer
    · intro k hk
      have hlt := turnsBefore_lt hpos (hkept k hk) (hstays k hk) (hnever k hk)
      omega

/-- Process 1 changes its share and exits. -/
def sharesAndExits : List Call := [.share 3, .exit 0]

theorem unstarved_sharesAndExits :
    ∃ seen m, Dispatched.runDispatches (interrupt scheduleShares) Call.Schedules sharesAndExits
        [] startMachine = some (seen, m) ∧
      ∃ rounds k, scan rounds ((Call.exit 0).enter m).current
        ((Call.exit 0).enter m).toKernel = some k := by
  have hrun : (Dispatched.runDispatches (interrupt scheduleShares) Call.Schedules sharesAndExits
      [] startMachine).any (fun run => Runs ((Call.exit 0).enter run.2).toKernel 3) = true := by
    decide
  obtain ⟨⟨seen, m⟩, hcalls, hfacts⟩ := (Option.any_eq_true ..).mp hrun
  have hharmless : ∀ call ∈ sharesAndExits, ∀ m, Harmless call m := by
    intro call hcall m
    simp only [sharesAndExits, List.mem_cons, List.not_mem_nil, or_false] at hcall
    rcases hcall with rfl | rfl
    · exact ⟨fun eax heq => by cases heq; decide, nofun⟩
    · exact ⟨nofun, nofun⟩
  exact ⟨seen, m, hcalls,
    (unstarved_of_harmless (.of_runDispatches sharesAndExits hharmless .start hcalls)).1
      (.exit 0) ⟨nofun, nofun⟩ trivial ⟨3, of_decide_eq_true hfacts⟩⟩

/-- Process 2 lowers its share below its counter, and the processes 3 and 4 exit. -/
def lowersShare : List Call := [.yield, .yield, .share 1, .yield, .exit 0, .exit 0]

/-- When process 1 exits too the loop goes on forever, though process 2 is runnable. -/
theorem lowersShare_starves : ¬ NeverStarves PositiveShare := by
  intro h
  have hrun : (Dispatched.runDispatches (interrupt scheduleShares) Call.Schedules lowersShare []
      startMachine).any (fun run => Runs ((Call.exit 0).enter run.2).toKernel 2 ∧
        ((Call.exit 0).enter run.2).current < nprocs ∧ ∀ pid < nprocs,
          Runs ((Call.exit 0).enter run.2).toKernel pid →
            (((Call.exit 0).enter run.2).procArray pid).share <
              (((Call.exit 0).enter run.2).procArray pid).counter) = true := by
    decide
  obtain ⟨⟨seen, m⟩, hcalls, hfacts⟩ := (Option.any_eq_true ..).mp hrun
  obtain ⟨hruns, hcurrent, hstuck⟩ := of_decide_eq_true hfacts
  have hpositive : ∀ call ∈ lowersShare, ∀ m, PositiveShare call m := by
    intro call hcall m eax heq
    subst heq
    have heax : eax = 1 := by simpa [lowersShare] using hcall
    subst heax
    decide
  obtain ⟨rounds, k, hk⟩ := (h seen m (.of_runDispatches lowersShare hpositive .start hcalls)).1
    (.exit 0) nofun trivial ⟨2, hruns⟩
  rw [scan_none (fun pid hpid => hstuck pid hpid.2.1 hpid) rounds hcurrent] at hk
  cases hk

end Cs111Labs.Schedos
