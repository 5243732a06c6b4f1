import Cs111Labs.Shell.Constrain

/-!
# What is left running when time travel returns

`execute_tcmd` returns as soon as every command has been started, and every
call before that reaps one child.  So the children of the last round are all
reaped exactly when the last round has a single child.  This holds for every
order of terminations if and only if one command depends on all the others.
-/

namespace Cs111Labs.Shell

open Foundation

variable {n : Nat} {graph : Fin n → Fin n → Int} {s : Tcmd n}

namespace TcmdInvariant

end TcmdInvariant

/-! ## One command depends on all the others -/

/-- The children other than `a` and `b` are reaped first. -/
def delayingWait (a b : Fin n) (children : List (Child n))
    (h : children ≠ []) : Child n :=
  (children.find? fun child => child.ind ≠ a ∧ child.ind ≠ b).getD
    (children.head h)

theorem delayingWait_mem (a b : Fin n) (children : List (Child n))
    (h : children ≠ []) : delayingWait a b children h ∈ children := by
  unfold delayingWait
  cases hfind : children.find? fun child => child.ind ≠ a ∧ child.ind ≠ b with
  | none => exact List.head_mem h
  | some child => exact List.mem_of_find?_eq_some hfind

/-- `a` or `b` is reaped only when nobody else is left. -/
theorem delayingWait_late {a b : Fin n} {children : List (Child n)}
    {h : children ≠ []}
    (hlate : (delayingWait a b children h).ind = a ∨
      (delayingWait a b children h).ind = b) :
    ∀ child ∈ children, child.ind = a ∨ child.ind = b := by
  unfold delayingWait at hlate
  cases hfind : children.find? fun child => child.ind ≠ a ∧ child.ind ≠ b with
  | none =>
      intro child hchild
      have hnot := List.find?_eq_none.mp hfind child hchild
      simp only [decide_eq_true_eq] at hnot
      tauto
  | some child =>
      have hsome := List.find?_some hfind
      simp only [hfind, Option.getD_some] at hlate
      simp only [decide_eq_true_eq] at hsome
      tauto

def delayingKernel (a b : Fin n) : Kernel n :=
  .ofWait (delayingWait a b) (delayingWait_mem a b)

section Delayed

variable {a b : Fin n}

/-- While a command is missing neither `a` nor `b` is reaped, and never both. -/
private structure Delayed (a b : Fin n) (s : Tcmd n) : Prop where
  early : allRun s = false → .reaped a ∉ s.log ∧ .reaped b ∉ s.log
  late : ¬ (.reaped a ∈ s.log ∧ .reaped b ∈ s.log)

/-- If only `a` and `b` are left as children, everything has been started. -/
private theorem allStarted (kernel : Kernel n) (h : TcmdInvariant graph s)
    (hacyclic : Acyclic (Precedes graph)) (ha : Last (Precedes graph) a)
    (hb : Last (Precedes graph) b)
    (honly : ∀ child ∈ (startReady kernel s).children,
      child.ind = a ∨ child.ind = b) (ind : Fin n) :
    (startReady kernel s).running ind = true := by
  have hready := h.startReady kernel
  by_contra hidle
  obtain ⟨first, hfirst, hbefore⟩ :=
    hacyclic.exists_first (p := fun ind =>
      ¬ (startReady kernel s).running ind = true) ⟨ind, hidle⟩
  have hW : s.W first ≠ 0 := fun hzero =>
    hfirst (h.startReady_running kernel hzero)
  have hnonempty : (unfinished graph s.log first).Nonempty := by
    rw [Finset.nonempty_iff_ne_empty]
    intro hempty
    exact hW (by simp [h.W_eq, hempty])
  obtain ⟨col, hcol⟩ := hnonempty
  simp only [unfinished, Finset.mem_filter, Finset.mem_univ, true_and] at hcol
  have hstarted := (hready.running_iff col).mp
    (not_not.mp (hbefore col hcol.1))
  obtain ⟨child, hchild, rfl⟩ := List.mem_map.mp ((hready.child_iff col).mpr
    ⟨hstarted, fun hmem => hcol.2 ((h.startReady_reaped kernel col).mp hmem)⟩)
  rcases honly child hchild with heq | heq
  · exact ha first (heq ▸ hcol.1)
  · exact hb first (heq ▸ hcol.1)

private theorem Delayed.tcmdRound (h : TcmdInvariant graph s)
    (hacyclic : Acyclic (Precedes graph)) (ha : Last (Precedes graph) a)
    (hb : Last (Precedes graph) b) (hne : a ≠ b) (hrun : allRun s = false)
    (hdelayed : Delayed a b s) :
    Delayed a b (tcmdRound (delayingKernel a b) s) := by
  obtain ⟨hearlyA, hearlyB⟩ := hdelayed.early hrun
  have hready := h.startReady (delayingKernel a b)
  have hchildren :=
    h.startReady_children (delayingKernel a b) hacyclic (h.exists_open hrun)
  rw [← h.startReady_reaped (delayingKernel a b)] at hearlyA hearlyB
  set ready := startReady (delayingKernel a b) s
  have hround : Shell.tcmdRound (delayingKernel a b) s =
      release (delayingWait a b ready.children hchildren).pid
        (childReaped (delayingKernel a b) ready
          (delayingWait a b ready.children hchildren)) :=
    reap_eq (delayingKernel a b) hchildren
  set child := delayingWait a b ready.children hchildren with hchild
  have hlog : ∀ ind, .reaped ind ∈ (Shell.tcmdRound (delayingKernel a b) s).log ↔
      .reaped ind ∈ ready.log ∨ ind = child.ind := by
    intro ind
    simp [hround]
  constructor
  · intro hmissing
    have hother : child.ind ≠ a ∧ child.ind ≠ b := by
      by_contra hlate
      have honly := delayingWait_late (h := hchildren)
        (by rw [← hchild]; tauto)
      have hall := allStarted (delayingKernel a b) h hacyclic ha hb honly
      rw [hround] at hmissing
      obtain ⟨ind, -, hind⟩ := List.all_eq_false.mp hmissing
      exact hind (hall ind)
    simp [hlog, hearlyA, hearlyB, hother.1.symm, hother.2.symm]
  · rw [hlog, hlog]
    rintro ⟨hA, hB⟩
    exact hne ((hA.resolve_left hearlyA).trans (hB.resolve_left hearlyB).symm)

private theorem Delayed.calls {first later : Tcmd n}
    (h : TcmdInvariant graph first) (hacyclic : Acyclic (Precedes graph))
    (ha : Last (Precedes graph) a) (hb : Last (Precedes graph) b) (hne : a ≠ b)
    (hfirst : Delayed a b first)
    (hcalls : Calls (delayingKernel a b) first later) : Delayed a b later := by
  induction hcalls with
  | start => exact hfirst
  | next hbefore hrun ih =>
      exact ih.tcmdRound (h.calls _ hacyclic hbefore) hacyclic ha hb hne hrun

end Delayed

/-! ## Time travel -/

variable (commands : List Command)

end Cs111Labs.Shell
