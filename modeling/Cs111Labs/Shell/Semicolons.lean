import Cs111Labs.Shell.Spines

/-!
# And-or lists separated by semicolons

Behind a `;` the root is a SEQUENCE node, and every other operator goes above
its right child, whatever stands there.  So the first list is read by the rules
of the grammar, and the later ones from left to right.
-/

namespace Cs111Labs.Shell

variable {level : Level} {c : Command}

namespace Text

theorem Nests.oneLine {t : Text level} (h : t.Nests) : t.OneLine := by
  induction t with
  | simple _ => trivial
  | subshell _ _ ih | command _ ih | pipeline _ ih | andOr _ ih => exact ih h
  | pipe _ _ hleft hright | connect _ _ _ hleft hright =>
      exact ⟨hleft h.2.1, hright h.2.2⟩
  | sequence _ _ _ hleft hright => exact ⟨h.1, hleft h.2.2.1, hright h.2.2.2⟩
  | complete _ _ ih => exact ih h.2

theorem nests_command {c : Text .command} (h : c.opens = false) : c.Nests := by
  cases c with
  | simple s => trivial
  | subshell body redirections => cases h

theorem nests_pipeline : ∀ p : Text .pipeline, p.opens = false → p.Nests
  | command _, h => nests_command h
  | pipe left _, h =>
      have hopens := Bool.or_eq_false_iff.mp h
      ⟨hopens.1, nests_pipeline left hopens.1, nests_command hopens.2⟩

theorem nests_andOr : ∀ a : Text .andOr, a.opens = false → a.Nests
  | pipeline p, h => nests_pipeline p h
  | connect left _ right, h =>
      have hopens := Bool.or_eq_false_iff.mp h
      ⟨hopens.1, nests_andOr left hopens.1, nests_pipeline right hopens.2⟩

/-- The tree of a text without parentheses. -/
theorem reads_iff (t : Text level) (hnests : t.Nests) (hopens : t.opens = false) :
    Reads t.tokens c ↔ c = plug (t.spine []) t.lastSimple.command := by
  obtain ⟨b, root, node, word, hrun, h, hsimple, hcommand, -⟩ :=
    t.leads hnests hopens startBuilder none 0 [] {} .null [Token.mk .endCmd none]
      parsing_start.pending (by simp)
  have hend : buildTokens .word [Token.mk .endCmd none] b = some b := by
    rw [buildTokens_of_plain (by simp [TokenType.isRedirection])]
    rfl
  have hstores : Stores b.heap b.commandRoot (plug (t.spine []) t.lastSimple.command) := by
    rw [← hcommand, h.tops.2]
    exact (h.descends.close (h.kept hsimple)).stores
  rw [reads_iff_of_running t.tokens_ne_nil t.written
    ((oneLine_iff t).mp (Nests.oneLine hnests)), hrun, hend]
  constructor
  · rintro ⟨b', hb', hstores'⟩
    obtain rfl := Option.some.inj hb'
    exact hstores'.unique hstores
  · rintro rfl
    exact ⟨b, rfl, hstores⟩

theorem reads_andOr_iff {a : Text .andOr} (hopens : a.opens = false) :
    Reads a.tokens c ↔ c = a.tree := by
  rw [a.reads_iff (nests_andOr a hopens) hopens, spine_andOr a (nests_andOr a hopens),
    plug_outline a hopens]

/-! ## Several lists -/

/-- `L1 ; L2 ; ... ; Lk` -/
def sequenceOf (first : Text .andOr) (more : List (Text .andOr)) : Text .list :=
  more.foldl (fun l a => .sequence l .semicolon a) (.andOr first)

theorem sequenceOf_concat (first : Text .andOr) (more : List (Text .andOr))
    (a : Text .andOr) :
    sequenceOf first (more ++ [a]) = .sequence (sequenceOf first more) .semicolon a := by
  rw [sequenceOf, List.foldl_append]
  rfl

theorem tree_sequenceOf (first : Text .andOr) (more : List (Text .andOr)) :
    (sequenceOf first more).tree =
      (more.map tree).foldl (.binary .sequenceCommand {}) first.tree := by
  induction more using List.reverseRecOn with
  | nil => rfl
  | append_singleton more a ih =>
      rw [sequenceOf_concat, tree, ih, List.map_append, List.foldl_append]
      rfl

theorem composes_sequenceOf_iff (first : Text .andOr) (more : List (Text .andOr)) :
    (sequenceOf first more).Composes ↔ ∀ a ∈ more, a.Single := by
  induction more using List.reverseRecOn with
  | nil =>
      refine iff_of_true ?_ (by simp)
      rw [sequenceOf, List.foldl_nil, Composes]
      trivial
  | append_singleton more a ih =>
      rw [sequenceOf_concat, Composes, ih]
      simp [or_imp, forall_and]

theorem sequenceOf_flat (first : Text .andOr) (more : List (Text .andOr))
    (hopens : ∀ a ∈ first :: more, a.opens = false) :
    (sequenceOf first more).opens = false ∧ (sequenceOf first more).Nests := by
  induction more using List.reverseRecOn with
  | nil =>
      have hfirst := hopens first (by simp)
      exact ⟨hfirst, nests_andOr first hfirst⟩
  | append_singleton more a ih =>
      have hlast : a.opens = false := hopens a (by simp)
      obtain ⟨hleft, hnests⟩ := ih fun x hx => hopens x (by
        simp only [List.mem_cons, List.mem_append] at hx ⊢
        tauto)
      rw [sequenceOf_concat]
      exact ⟨Bool.or_eq_false_iff.mpr ⟨hleft, hlast⟩, rfl, hleft, hnests,
        nests_andOr a hlast⟩

/-- The trees of the lists alone, joined by SEQUENCE nodes. -/
theorem reads_sequenceOf_iff {first : Text .andOr} {more : List (Text .andOr)}
    (hopens : ∀ a ∈ first :: more, a.opens = false) :
    Reads (sequenceOf first more).tokens
        ((more.map tree).foldl (.binary .sequenceCommand {}) first.tree) ↔
      ∀ a ∈ more, a.Single := by
  obtain ⟨hflat, hnests⟩ := sequenceOf_flat first more hopens
  have hoperand : (sequenceOf first more).lastSimple.command.IsOperand := trivial
  rw [reads_iff _ hnests hflat, ← tree_sequenceOf, ← plug_outline _ hflat,
    plug_inj hoperand, eq_comm, spine_list_iff _ hnests, composes_sequenceOf_iff]

theorem trees_eq {lists : List (Text .andOr)} {trees : List Command}
    (h : List.Forall₂ (fun a c => Reads a.tokens c) lists trees)
    (hopens : ∀ a ∈ lists, a.opens = false) : trees = lists.map tree := by
  induction h with
  | nil => rfl
  | cons hread _ ih =>
      obtain ⟨hfirst, hrest⟩ := List.forall_mem_cons.mp hopens
      rw [(reads_andOr_iff hfirst).mp hread, ih hrest, List.map_cons]

end Text

/-- A simple command of one letter -/
def letter (byte : UInt8) : Text .andOr :=
  .pipeline (.command (.simple ⟨[byte], []⟩))

/-- `b&&c|d` -/
def pipeBehindAnd : Text .andOr :=
  .connect (letter 98) .and
    (.pipe (.command (.simple ⟨[99], []⟩)) (.simple ⟨[100], []⟩))

theorem reads_semicolons_iff (first second : Text .andOr) (more : List (Text .andOr))
    (tree : Command) (trees : List Command)
    (hopens : ∀ a ∈ first :: second :: more, a.opens = false)
    (hfirst : Reads first.tokens tree)
    (hrest : List.Forall₂ (fun a c => Reads a.tokens c) (second :: more) trees) :
    Reads (Text.sequenceOf first (second :: more)).tokens
        (trees.foldl (.binary .sequenceCommand {}) tree) ↔
      ∀ a ∈ second :: more, a.Single := by
  obtain rfl := (Text.reads_andOr_iff (hopens first (by simp))).mp hfirst
  rw [Text.trees_eq hrest fun a ha => hopens a (List.mem_cons_of_mem first ha)]
  exact Text.reads_sequenceOf_iff hopens

/-- `a;b` -/
theorem reads_semicolons_iff_two :
    Reads (Text.sequenceOf (letter 97) [letter 98]).tokens
        ([(letter 98).tree].foldl (.binary .sequenceCommand {}) (letter 97).tree) ↔
      ∀ a ∈ [letter 98], a.Single :=
  reads_semicolons_iff (letter 97) (letter 98) [] (letter 97).tree [(letter 98).tree]
    (by simp [letter, Text.opens]) ((Text.reads_andOr_iff rfl).mpr rfl)
    (.cons ((Text.reads_andOr_iff rfl).mpr rfl) .nil)

/-- `a;b&&c|d` is read as `a;(b&&c)|d`. -/
theorem pipeBehindAnd_not_reads :
    ¬ ∀ (first second : Text .andOr) (more : List (Text .andOr)) (tree : Command)
      (trees : List Command), (∀ a ∈ first :: second :: more, a.opens = false) →
      Reads first.tokens tree →
      List.Forall₂ (fun a c => Reads a.tokens c) (second :: more) trees →
        Reads (Text.sequenceOf first (second :: more)).tokens
          (trees.foldl (.binary .sequenceCommand {}) tree) := by
  intro hall
  have hopens : ∀ a ∈ [letter 97, pipeBehindAnd], a.opens = false := by
    simp [letter, pipeBehindAnd, Text.opens]
  have hreads := hall (letter 97) pipeBehindAnd [] (letter 97).tree [pipeBehindAnd.tree]
    hopens ((Text.reads_andOr_iff rfl).mpr rfl)
    (.cons ((Text.reads_andOr_iff rfl).mpr rfl) .nil)
  have hsingle := (Text.reads_sequenceOf_iff hopens).mp hreads pipeBehindAnd (by simp)
  rw [pipeBehindAnd, Text.Single] at hsingle
  exact hsingle

end Cs111Labs.Shell
