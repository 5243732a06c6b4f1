import Cs111Labs.Shell.Schedule

/-!
# The schedule of `execute_tcmd`

One invariant ties the mutated matrix, the counters, the flags and the set of
unreaped children to the history.  It holds in every call, and acyclicity of
the matrix makes every `wait` find a child, so the recursion ends after at most
one call more than there are commands.
-/

namespace Cs111Labs.Shell

open Foundation

variable {n : Nat} {graph : Fin n → Fin n → Int} {s : Tcmd n}

/-- `col` has to finish before `row` starts. -/
def Precedes (graph : Fin n → Fin n → Int) (col row : Fin n) : Prop :=
  graph row col = 1

instance (graph : Fin n → Fin n → Int) (col row : Fin n) :
    Decidable (Precedes graph col row) :=
  inferInstanceAs (Decidable (_ = _))

structure TcmdInvariant (graph : Fin n → Fin n → Int) (s : Tcmd n) : Prop where
  graph_eq : ∀ row col, s.constrainGraph row col =
    if graph row col = 1 ∧ .reaped col ∈ s.log then 0 else graph row col
  W_eq : ∀ row, s.W row = (unfinished graph s.log row).card
  running_iff : ∀ ind, s.running ind = true ↔ .started ind ∈ s.log
  started_once : ∀ ind, s.log.count (.started ind) ≤ 1
  child_iff : ∀ ind, ind ∈ s.children.map Child.ind ↔
    .started ind ∈ s.log ∧ .reaped ind ∉ s.log
  child_pid : ∀ child ∈ s.children, s.pid child.ind = child.pid ∧ 0 < child.pid
  inds_nodup : (s.children.map Child.ind).Nodup
  pids_nodup : (s.children.map Child.pid).Nodup
  idle_pid : ∀ ind, .started ind ∉ s.log → s.pid ind = 0
  reaped_started : ∀ ind, .reaped ind ∈ s.log → .started ind ∈ s.log
  ordered : Ordered graph s.log
  waits : ∀ children, .waitCalled children ∈ s.log → children ≠ []

namespace TcmdInvariant

theorem initial (graph : Fin n → Fin n → Int) (W : Fin n → Int) (status : Int)
    (hW : ∀ row, W row =
      (Finset.univ.filter fun col => graph row col = 1).card) :
    TcmdInvariant graph
      { constrainGraph := graph, W := W, status := status } where
  graph_eq := by simp
  W_eq := by simpa [unfinished] using hW
  running_iff := by simp
  started_once := by simp
  child_iff := by simp
  child_pid := by simp
  inds_nodup := by simp
  pids_nodup := by simp
  idle_pid := by simp
  reaped_started := by simp
  ordered := by
    intro before row after heq
    simp at heq
  waits := by simp

variable (kernel : Kernel n)

/-! ## Starting commands -/

theorem predecessors_reaped (h : TcmdInvariant graph s) {row : Fin n}
    (hW : s.W row = 0) {col : Fin n} (hcol : graph row col = 1) :
    .reaped col ∈ s.log := by
  by_contra hnot
  have hcard : (unfinished graph s.log row).card = 0 := by
    have hrow := h.W_eq row
    omega
  have hmem : col ∈ unfinished graph s.log row := by
    simp [unfinished, hcol, hnot]
  rw [Finset.card_eq_zero] at hcard
  simp [hcard] at hmem

private theorem unfinished_append {event : Event n} {log : List (Event n)}
    (hevent : ∀ ind, event ≠ .reaped ind) (row : Fin n) :
    unfinished graph (log ++ [event]) row = unfinished graph log row := by
  ext col
  simp [unfinished, (hevent col).symm]

theorem startCommand (h : TcmdInvariant graph s) (ind : Fin n) :
    TcmdInvariant graph (startCommand kernel s ind) := by
  unfold Shell.startCommand
  split
  · rename_i hready
    obtain ⟨hW, hidle⟩ := hready
    have hfresh := kernel.fork_fresh s.log s.children
    have hpos := kernel.fork_pos s.log s.children
    set pidTemp := kernel.fork s.log s.children
    have hnew : .started ind ∉ s.log := by
      intro hmem
      rw [← h.running_iff, hidle] at hmem
      exact Bool.false_ne_true hmem
    have hnewChild : ind ∉ s.children.map Child.ind :=
      fun hmem => hnew ((h.child_iff ind).mp hmem).1
    have hnewReaped : .reaped ind ∉ s.log :=
      fun hmem => hnew (h.reaped_started ind hmem)
    exact {
      graph_eq := by simpa using h.graph_eq
      W_eq := by
        intro row
        rw [unfinished_append (by simp)]
        exact h.W_eq row
      running_iff := by
        intro other
        by_cases hother : other = ind
        · simp [hother]
        · simp [hother, h.running_iff]
      started_once := by
        intro other
        by_cases hother : other = ind
        · subst hother
          simp [List.count_eq_zero.mpr hnew]
        · simpa [List.count_append, List.count_singleton, Ne.symm hother]
            using h.started_once other
      child_iff := by
        intro other
        by_cases hother : other = ind
        · simp [hother, hnewReaped]
        · simpa [hother] using h.child_iff other
      child_pid := by
        intro child hchild
        rcases List.mem_append.mp hchild with hold | hlast
        · have hne : child.ind ≠ ind := by
            rintro rfl
            exact hnewChild (List.mem_map_of_mem hold)
          simpa [hne] using h.child_pid child hold
        · obtain rfl : child = ⟨pidTemp, ind⟩ := by simpa using hlast
          simpa using hpos
      inds_nodup := by
        rw [List.map_append]
        exact h.inds_nodup.append (by simp)
          (by simpa using hnewChild)
      pids_nodup := by
        rw [List.map_append]
        refine h.pids_nodup.append (by simp) ?_
        intro pid hpid hpid'
        obtain rfl : pid = pidTemp := by simpa using hpid'
        obtain ⟨child, hchild, heq⟩ := List.mem_map.mp hpid
        exact hfresh child hchild heq
      idle_pid := by
        intro other hother
        have hne : other ≠ ind := by
          rintro rfl
          simp at hother
        simpa [hne] using h.idle_pid other (by simpa [hne] using hother)
      reaped_started := by
        intro other hother
        exact List.mem_append_left _
          (h.reaped_started other (by simpa using hother))
      ordered := h.ordered.append (by
        intro row hrow col hcol
        obtain rfl : ind = row := by simpa using hrow
        exact h.predecessors_reaped hW hcol)
      waits := by simpa using h.waits }
  · exact h

private theorem startCommand_W (s : Tcmd n) (ind row : Fin n) :
    (Shell.startCommand kernel s ind).W row = s.W row := by
  unfold Shell.startCommand
  split <;> rfl

private theorem startCommand_running (s : Tcmd n) (ind : Fin n)
    {other : Fin n} (h : s.running other = true) :
    (Shell.startCommand kernel s ind).running other = true := by
  unfold Shell.startCommand
  split
  · by_cases hother : other = ind <;> simp [hother, h]
  · exact h

private theorem startCommand_reaped (s : Tcmd n) (ind other : Fin n) :
    .reaped other ∈ (Shell.startCommand kernel s ind).log ↔
      .reaped other ∈ s.log := by
  unfold Shell.startCommand
  split <;> simp

/-- What the loop over the commands achieves, for a part of the loop. -/
private theorem startLoop (h : TcmdInvariant graph s) (inds : List (Fin n)) :
    let after := inds.foldl (Shell.startCommand kernel) s
    TcmdInvariant graph after ∧
      (∀ ind, .reaped ind ∈ after.log ↔ .reaped ind ∈ s.log) ∧
      (∀ ind, s.running ind = true → after.running ind = true) ∧
      ∀ ind ∈ inds, s.W ind = 0 → after.running ind = true := by
  induction inds generalizing s with
  | nil => simp [h]
  | cons head tail ih =>
      obtain ⟨hinv, hreaped, hkeep, hready⟩ :=
        ih (h.startCommand kernel head)
      refine ⟨hinv, ?_, ?_, ?_⟩
      · intro ind
        exact (hreaped ind).trans (startCommand_reaped kernel s head ind)
      · intro ind hind
        exact hkeep ind (startCommand_running kernel s head hind)
      · intro ind hind hW
        rcases List.mem_cons.mp hind with rfl | htail
        · apply hkeep
          unfold Shell.startCommand
          cases hrun : s.running ind <;> simp [hW, hrun]
        · exact hready ind htail (by rw [startCommand_W]; exact hW)

theorem startReady (h : TcmdInvariant graph s) :
    TcmdInvariant graph (startReady kernel s) :=
  (startLoop kernel h (List.finRange n)).1

theorem startReady_reaped (h : TcmdInvariant graph s) (ind : Fin n) :
    .reaped ind ∈ (Shell.startReady kernel s).log ↔ .reaped ind ∈ s.log :=
  (startLoop kernel h (List.finRange n)).2.1 ind

theorem startReady_running (h : TcmdInvariant graph s) {ind : Fin n}
    (hW : s.W ind = 0) : (Shell.startReady kernel s).running ind = true :=
  (startLoop kernel h (List.finRange n)).2.2.2 ind (List.mem_finRange ind) hW

/-! ## Waiting -/

/-- While a command is unreaped, some child runs after the starting loop. -/
theorem startReady_children (h : TcmdInvariant graph s)
    (hacyclic : Acyclic (Precedes graph))
    (hopen : ∃ ind, .reaped ind ∉ s.log) :
    (Shell.startReady kernel s).children ≠ [] := by
  obtain ⟨ind, hind, hfirst⟩ := hacyclic.exists_first hopen
  have hempty : unfinished graph s.log ind = ∅ := by
    ext col
    simp only [unfinished, Finset.mem_filter, Finset.mem_univ, true_and,
      Finset.notMem_empty, iff_false, not_and, not_not]
    exact fun hcol => not_not.mp (hfirst col hcol)
  have hW : s.W ind = 0 := by simp [h.W_eq, hempty]
  have hstarted :=
    (h.startReady kernel).running_iff ind |>.mp
      (h.startReady_running kernel hW)
  have hchild := ((h.startReady kernel).child_iff ind).mpr
    ⟨hstarted, fun hmem => hind ((h.startReady_reaped kernel ind).mp hmem)⟩
  intro hnil
  simp [hnil] at hchild

private theorem eq_of_pid (h : TcmdInvariant graph s) {child : Child n}
    (hchild : child ∈ s.children) {row col : Fin n}
    (hpid : s.pid col = child.pid) (hcol : s.constrainGraph row col = 1) :
    col = child.ind := by
  have hpos := (h.child_pid child hchild).2
  have hstarted : .started col ∈ s.log := by
    by_contra hnot
    have hzero := h.idle_pid col hnot
    omega
  have hopen : .reaped col ∉ s.log := by
    intro hmem
    have hentry := h.graph_eq row col
    rw [hcol] at hentry
    split at hentry
    · omega
    · rename_i hnot
      exact hnot ⟨hentry.symm, hmem⟩
  obtain ⟨other, hother, rfl⟩ :=
    List.mem_map.mp ((h.child_iff col).mpr ⟨hstarted, hopen⟩)
  have hsame : other = child :=
    List.inj_on_of_nodup_map h.pids_nodup hother hchild
      ((h.child_pid other hother).1.symm.trans hpid)
  rw [hsame]

theorem childReaped (h : TcmdInvariant graph s) {child : Child n}
    (hmem : child ∈ s.children) :
    TcmdInvariant graph (release child.pid (childReaped kernel s child)) := by
  have hpid := (h.child_pid child hmem).1
  have hopen := (h.child_iff child.ind).mp (List.mem_map_of_mem hmem)
  have hmemLog : ∀ event : Event n, (∀ children, event ≠ .waitCalled children) →
      event ≠ .reaped child.ind →
      (event ∈ (Shell.childReaped kernel s child).log ↔ event ∈ s.log) := by
    intro event hwait hreaped
    simp [hwait, hreaped]
  have hentry : ∀ row, s.constrainGraph row child.ind = graph row child.ind := by
    intro row
    rw [h.graph_eq, if_neg (fun hboth => hopen.2 hboth.2)]
  have herase : ∀ other, other ∈ s.children.erase child ↔
      other ≠ child ∧ other ∈ s.children :=
    fun other => h.inds_nodup.of_map.mem_erase_iff
  exact {
    graph_eq := by
      intro row col
      rw [release_constrainGraph]
      by_cases hcol : col = child.ind
      · subst hcol
        by_cases hone : graph row child.ind = 1 <;>
          simp [Shell.childReaped, release, hpid, hentry, hone]
      · have hkeep : ¬ ((Shell.childReaped kernel s child).pid col = child.pid ∧
            (Shell.childReaped kernel s child).constrainGraph row col = 1) :=
          fun hboth => hcol (h.eq_of_pid hmem hboth.1 hboth.2)
        rw [if_neg hkeep]
        simpa [hcol] using h.graph_eq row col
    W_eq := by
      intro row
      rw [release_W]
      have hcount : (List.finRange n).countP (fun col =>
          s.pid col = child.pid ∧ s.constrainGraph row col = 1) =
          if graph row child.ind = 1 then 1 else 0 := by
        split
        · rename_i hone
          rw [← List.count_eq_one_of_mem (List.nodup_finRange n)
            (List.mem_finRange child.ind)]
          apply List.countP_congr
          intro col _
          simp only [decide_eq_true_eq, beq_iff_eq]
          constructor
          · exact fun hboth => h.eq_of_pid hmem hboth.1 hboth.2
          · rintro rfl
            exact ⟨hpid, (hentry row).trans hone⟩
        · rename_i hone
          rw [List.countP_eq_zero]
          intro col _ hboth
          have hboth' := of_decide_eq_true hboth
          have hcol := h.eq_of_pid hmem hboth'.1 hboth'.2
          rw [hcol, hentry] at hboth'
          exact hone hboth'.2
      have hset : unfinished graph
          (s.log ++ [.waitCalled s.children, .reaped child.ind]) row =
          (unfinished graph s.log row).erase child.ind := by
        ext col
        by_cases hcol : col = child.ind <;> simp [unfinished, hcol]
      have hW := h.W_eq row
      change s.W row - ((List.finRange n).countP (fun col =>
        s.pid col = child.pid ∧ s.constrainGraph row col = 1) : Nat) = _
      rw [hcount, release_log, childReaped_log, hset, Finset.card_erase_eq_ite]
      by_cases hone : graph row child.ind = 1
      · have hin : child.ind ∈ unfinished graph s.log row := by
          simp [unfinished, hone, hopen.2]
        have hcard := Finset.card_pos.mpr ⟨_, hin⟩
        simp only [hone, hin, if_true]
        omega
      · have hin : child.ind ∉ unfinished graph s.log row := by
          simp [unfinished, hone]
        simp [hone, hin, hW]
    running_iff := by
      intro ind
      exact (h.running_iff ind).trans (hmemLog _ (by simp) (by simp)).symm
    started_once := by
      intro ind
      simpa [List.count_append, List.count_cons]
        using h.started_once ind
    child_iff := by
      intro ind
      change ind ∈ (s.children.erase child).map Child.ind ↔ _
      have hstart : .started ind ∈
          (Shell.childReaped kernel s child).log ↔
          .started ind ∈ s.log := hmemLog _ (by simp) (by simp)
      simp only [release_log, hstart, List.mem_map, herase]
      constructor
      · rintro ⟨other, ⟨hne, hother⟩, rfl⟩
        have hind : other.ind ≠ child.ind := fun heq =>
          hne (List.inj_on_of_nodup_map h.inds_nodup hother hmem heq)
        have hold := (h.child_iff other.ind).mp (List.mem_map_of_mem hother)
        exact ⟨hold.1, by simpa [hind] using hold.2⟩
      · rintro ⟨hstarted, hreaped⟩
        have hne : ind ≠ child.ind := by
          rintro rfl
          simp at hreaped
        obtain ⟨other, hother, rfl⟩ := List.mem_map.mp
          ((h.child_iff ind).mpr ⟨hstarted, by simpa [hne] using hreaped⟩)
        exact ⟨other, ⟨fun heq => hne (heq ▸ rfl), hother⟩, rfl⟩
    child_pid := by
      intro other hother
      exact h.child_pid other ((herase other).mp hother).2
    inds_nodup := h.inds_nodup.sublist ((List.erase_sublist).map _)
    pids_nodup := h.pids_nodup.sublist ((List.erase_sublist).map _)
    idle_pid := by
      intro ind hind
      exact h.idle_pid ind (mt (hmemLog _ (by simp) (by simp)).mpr hind)
    reaped_started := by
      intro ind hind
      apply (hmemLog _ (by simp) (by simp)).mpr
      by_cases heq : ind = child.ind
      · exact heq ▸ hopen.1
      · exact h.reaped_started ind (by simpa [release, heq] using hind)
    ordered := by
      simpa using
        ((h.ordered.append (e := .waitCalled s.children) (by simp)).append
          (e := .reaped child.ind) (by simp))
    waits := by
      intro children hin
      rcases (by simpa using hin :
        .waitCalled children ∈ s.log ∨ children = s.children) with hold | rfl
      · exact h.waits children hold
      · exact List.ne_nil_of_mem hmem }

/-! ## Rounds and runs -/

theorem reap (h : TcmdInvariant graph s) (hchildren : s.children ≠ []) :
    TcmdInvariant graph (reap kernel s) ∧
      ∃ child ∈ s.children, (Shell.reap kernel s).log =
        s.log ++ [.waitCalled s.children, .reaped child.ind] := by
  have hmem := kernel.wait_mem s.log s.children hchildren
  rw [reap_eq kernel hchildren]
  exact ⟨h.childReaped kernel hmem, _, hmem, rfl⟩

theorem exists_open (h : TcmdInvariant graph s) (hrun : allRun s = false) :
    ∃ ind, .reaped ind ∉ s.log := by
  obtain ⟨ind, -, hind⟩ := List.all_eq_false.mp hrun
  exact ⟨ind, fun hmem =>
    hind ((h.running_iff ind).mpr (h.reaped_started ind hmem))⟩

/-- The commands that were not reaped yet. -/
def openCommands (s : Tcmd n) : Finset (Fin n) := {ind | .reaped ind ∉ s.log}

theorem tcmdRound (h : TcmdInvariant graph s)
    (hacyclic : Acyclic (Precedes graph)) (hrun : allRun s = false) :
    TcmdInvariant graph (tcmdRound kernel s) ∧
      (openCommands (Shell.tcmdRound kernel s)).card <
        (openCommands s).card := by
  have hready := h.startReady kernel
  have hchildren := h.startReady_children kernel hacyclic
    (h.exists_open hrun)
  obtain ⟨hinv, child, hchild, hlog⟩ := hready.reap kernel hchildren
  refine ⟨hinv, Finset.card_lt_card ?_⟩
  have hopen := (hready.child_iff child.ind).mp (List.mem_map_of_mem hchild)
  rw [h.startReady_reaped] at hopen
  rw [Finset.ssubset_iff_of_subset]
  · exact ⟨child.ind, by simp [openCommands, hopen.2],
      by simp [openCommands, Shell.tcmdRound, hlog]⟩
  · intro ind
    simp only [openCommands, Finset.mem_filter, Finset.mem_univ, true_and]
    intro hind hmem
    apply hind
    rw [Shell.tcmdRound, hlog]
    exact List.mem_append_left _ ((h.startReady_reaped kernel ind).mpr hmem)

theorem calls (h : TcmdInvariant graph s)
    (hacyclic : Acyclic (Precedes graph)) {later : Tcmd n}
    (hcalls : Calls kernel s later) : TcmdInvariant graph later := by
  induction hcalls with
  | start => exact h
  | next _ hrun ih => exact (ih.tcmdRound kernel hacyclic hrun).1

/-- The recursion ends, in a state where every command has been started. -/
theorem executeTcmd (h : TcmdInvariant graph s)
    (hacyclic : Acyclic (Precedes graph)) {fuel : Nat}
    (hfuel : (openCommands s).card < fuel) :
    ∃ final, executeTcmd kernel fuel s = some final ∧
      Calls kernel s final ∧ allRun final = true := by
  suffices hmain : ∀ first, Calls kernel first s →
      ∃ final, Shell.executeTcmd kernel fuel s = some final ∧
        Calls kernel first final ∧ allRun final = true from hmain s .start
  induction fuel generalizing s with
  | zero => omega
  | succ fuel ih =>
      intro first hcalls
      cases hrun : allRun s with
      | true => exact ⟨s, by simp [Shell.executeTcmd, hrun], hcalls, hrun⟩
      | false =>
          obtain ⟨hinv, hlt⟩ := h.tcmdRound kernel hacyclic hrun
          obtain ⟨final, hfinal, hrest⟩ :=
            ih hinv (by omega) first (.next hcalls hrun)
          exact ⟨final, by simpa [Shell.executeTcmd, hrun] using hfinal, hrest⟩

end TcmdInvariant

/-! ## The schedule -/

/-- What the history of a run has to look like. -/
structure RespectsDependencies (graph : Fin n → Fin n → Int)
    (log : List (Event n)) : Prop where
  starts_once : ∀ ind, log.count (.started ind) = 1
  ordered : Ordered graph log
  waits_for_child : ∀ children, .waitCalled children ∈ log → children ≠ []

theorem executeTcmd_respectsDependencies (kernel : Kernel n)
    (graph : Fin n → Fin n → Int) (W : Fin n → Int) (status : Int)
    (hacyclic : Acyclic (Precedes graph))
    (hW : ∀ row, W row =
      (Finset.univ.filter fun col => graph row col = 1).card) :
    let first : Tcmd n :=
      { constrainGraph := graph, W := W, status := status }
    (∃ final, executeTcmd kernel (n + 1) first = some final ∧
        RespectsDependencies graph final.log) ∧
      ∀ s, Calls kernel first s →
        ∀ row, s.W row = (unfinished graph s.log row).card := by
  intro first
  have hfirst := TcmdInvariant.initial graph W status hW
  constructor
  · have hcard : (TcmdInvariant.openCommands first).card < n + 1 :=
      Nat.lt_succ_of_le
        (by simpa using Finset.card_le_univ (TcmdInvariant.openCommands first))
    obtain ⟨final, hfinal, hcalls, hrun⟩ :=
      hfirst.executeTcmd kernel hacyclic hcard
    have hinv := hfirst.calls kernel hacyclic hcalls
    refine ⟨final, hfinal, ?_, hinv.ordered, hinv.waits⟩
    intro ind
    have hstarted := (hinv.running_iff ind).mp
      (List.all_eq_true.mp hrun ind (List.mem_finRange ind))
    exact le_antisymm (hinv.started_once ind)
      (List.one_le_count_iff.mpr hstarted)
  · intro s hcalls row
    exact (hfirst.calls kernel hacyclic hcalls).W_eq row

/-- Two commands, the second after the first. -/
theorem executeTcmd_respectsDependencies_pair :
    ∃ final, executeTcmd (fifoKernel 2) 3
        { constrainGraph := fun row col => if col < row then 1 else 0
          W := fun row => row.val } = some final ∧
      RespectsDependencies (fun row col : Fin 2 => if col < row then 1 else 0)
        final.log :=
  (executeTcmd_respectsDependencies (fifoKernel 2) _ _ 0
    (.of_lt (fun _ _ h => by simpa [Precedes] using h)) (by decide)).1

end Cs111Labs.Shell
