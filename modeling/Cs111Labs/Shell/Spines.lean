import Cs111Labs.Shell.ScriptText

/-!
# The spine of a text

What the builder has above the last command of a text, and what the grammar has
there.  Both are a chain of operators with their left operands; the commands
before the last one are simple.
-/

namespace Cs111Labs.Shell

/-! ## Reading up to a simple command -/

/-- The cells lead to a simple command behind a longer spine. -/
def Leads (tokens : List Token) (step : Spine → Spine) (s : SimpleText) : Prop :=
  ∀ (b : Builder) (sub : Option Ptr) (root : Nat) (spine : Spine) (node : Node)
    (previous : TokenType) (rest : List Token), Pending b sub root spine node →
    node.type ≠ some .simpleCommand →
    ∃ b' root' node' word, buildTokens previous (tokens ++ rest) b =
        buildTokens .word rest b' ∧
      Pending b' sub root' (step spine) node' ∧ node'.Simple word ∧
      .simple node'.redirections word = s.command ∧ Outside sub b b'

variable {left right : List Token} {step step' : Spine → Spine} {s s' : SimpleText}

theorem leads_simple (s : SimpleText) : Leads s.tokens id s := by
  intro b sub root spine node previous rest h htype
  obtain ⟨hpending, houtside⟩ := h.write s.node
  exact ⟨_, root, s.node, _,
    buildTokens_simple s previous rest (by rw [h.node]; exact htype), hpending,
    s.node_simple, rfl, houtside⟩

theorem isRedirection_operator (operator : Operator) :
    operator.token.isRedirection = false := by
  cases operator with
  | pipeCommand | andCommand | orCommand | sequenceCommand => rfl

theorem Leads.operator (hleft : Leads left step s) (hright : Leads right step' s')
    (operator : Operator) :
    Leads (left ++ ⟨operator.token, none⟩ :: right)
      (fun spine => step' (operator.descend (step spine) s.command)) s' := by
  intro b sub root spine node previous rest h htype
  obtain ⟨b₁, root₁, node₁, word₁, hrun₁, h₁, hsimple₁, hcommand₁, houtside₁⟩ :=
    hleft b sub root spine node previous (⟨operator.token, none⟩ :: right ++ rest) h htype
  obtain ⟨b₂, root₂, hbuild, h₂, houtside₂⟩ := h₁.operator hsimple₁ operator
  rw [hcommand₁] at h₂
  obtain ⟨b₃, root₃, node₃, word₃, hrun₃, h₃, hsimple₃, hcommand₃, houtside₃⟩ :=
    hright b₂ sub root₂ _ {} operator.token rest h₂ (by simp)
  refine ⟨b₃, root₃, node₃, word₃, ?_, h₃, hsimple₃, hcommand₃,
    (houtside₁.trans houtside₂).trans houtside₃⟩
  rw [List.append_assoc, hrun₁, List.cons_append,
    buildTokens_of_plain (isRedirection_operator operator), buildToken_operator, hbuild,
    Option.bind_some, hrun₃]

/-! ## Texts -/

namespace Text

variable {level : Level}

/-- On one line, without a last semicolon, and with parentheses only around the
last command. -/
def Nests : {level : Level} → Text level → Prop
  | _, simple _ => True
  | _, subshell body _ => body.Nests
  | _, command c => c.Nests
  | _, pipe left right => left.opens = false ∧ left.Nests ∧ right.Nests
  | _, pipeline p => p.Nests
  | _, connect left _ right => left.opens = false ∧ left.Nests ∧ right.Nests
  | _, andOr a => a.Nests
  | _, sequence left joint right =>
      joint = .semicolon ∧ left.opens = false ∧ left.Nests ∧ right.Nests
  | _, complete l semicolon => semicolon = false ∧ l.Nests

/-- The last simple command, inside all parentheses -/
def lastSimple : {level : Level} → Text level → SimpleText
  | _, simple s => s
  | _, subshell body _ => body.lastSimple
  | _, command c => c.lastSimple
  | _, pipe _ right => right.lastSimple
  | _, pipeline p => p.lastSimple
  | _, connect _ _ right => right.lastSimple
  | _, andOr a => a.lastSimple
  | _, sequence _ _ right => right.lastSimple
  | _, complete l _ => l.lastSimple

/-- What the builder has above the last command, if it starts behind `spine`. -/
def spine : {level : Level} → Text level → Spine → Spine
  | _, simple _, spine => spine
  | _, subshell _ _, spine => spine
  | _, command c, spine => c.spine spine
  | _, pipe left right, spine =>
      right.spine (Operator.pipeCommand.descend (left.spine spine) left.lastSimple.command)
  | _, pipeline p, spine => p.spine spine
  | _, connect left connective right, spine =>
      right.spine (connective.operator.descend (left.spine spine) left.lastSimple.command)
  | _, andOr a, spine => a.spine spine
  | _, sequence left _ right, spine =>
      right.spine
        (Operator.sequenceCommand.descend (left.spine spine) left.lastSimple.command)
  | _, complete l _, spine => l.spine spine

/-- The last command as a tree -/
def lastTree : {level : Level} → Text level → Command
  | _, simple s => s.command
  | _, subshell body redirections => .subshell redirections body.tree
  | _, command c => c.lastTree
  | _, pipe _ right => right.lastTree
  | _, pipeline p => p.lastTree
  | _, connect _ _ right => right.lastTree
  | _, andOr a => a.lastTree
  | _, sequence _ _ right => right.lastTree
  | _, complete l _ => l.lastTree

/-- What the grammar has above the last command. -/
def outline : {level : Level} → Text level → Spine
  | _, simple _ => []
  | _, subshell _ _ => []
  | _, command c => c.outline
  | _, pipe left right => (.pipeCommand, left.tree) :: right.outline
  | _, pipeline p => p.outline
  | _, connect left connective right =>
      (connective.operator, left.tree) :: right.outline
  | _, andOr a => a.outline
  | _, sequence left _ right => (.sequenceCommand, left.tree) :: right.outline
  | _, complete l _ => l.outline

theorem tree_eq (t : Text level) : t.tree = plug t.outline t.lastTree := by
  induction t with
  | simple _ | subshell _ _ _ => rfl
  | command _ ih | pipeline _ ih | andOr _ ih | complete _ _ ih => exact ih
  | pipe left right _ ih | connect left _ right _ ih | sequence left _ right _ ih =>
      rw [tree, outline, plug, lastTree, ih]

theorem lastTree_eq (t : Text level) (h : t.opens = false) :
    t.lastTree = t.lastSimple.command := by
  induction t with
  | simple _ => rfl
  | subshell _ _ _ => cases h
  | command _ ih | pipeline _ ih | andOr _ ih | complete _ _ ih => exact ih h
  | pipe _ _ _ ih | connect _ _ _ _ ih | sequence _ _ _ _ ih =>
      exact ih (Bool.or_eq_false_iff.mp h).2

theorem connective_token (connective : Connective) :
    connective.token = connective.operator.token := by
  cases connective with
  | and | or => rfl

/-- The cells of a text without parentheses. -/
theorem leads (t : Text level) (hnests : t.Nests) (hopens : t.opens = false) :
    Leads t.tokens t.spine t.lastSimple := by
  induction t with
  | simple s => exact leads_simple s
  | subshell _ _ _ => cases hopens
  | command _ ih | pipeline _ ih | andOr _ ih => exact ih hnests hopens
  | pipe left right hleft hright =>
      obtain ⟨hopens₁, hopens₂⟩ := Bool.or_eq_false_iff.mp hopens
      exact (hleft hnests.2.1 hopens₁).operator (hright hnests.2.2 hopens₂) .pipeCommand
  | connect left connective right hleft hright =>
      obtain ⟨hopens₁, hopens₂⟩ := Bool.or_eq_false_iff.mp hopens
      rw [tokens, connective_token]
      exact (hleft hnests.2.1 hopens₁).operator (hright hnests.2.2 hopens₂)
        connective.operator
  | sequence left joint right hleft hright =>
      obtain ⟨hopens₁, hopens₂⟩ := Bool.or_eq_false_iff.mp hopens
      obtain ⟨rfl, -, hnests₁, hnests₂⟩ := hnests
      exact (hleft hnests₁ hopens₁).operator (hright hnests₂ hopens₂) .sequenceCommand
  | complete l semicolon ih =>
      obtain ⟨rfl, hnests⟩ := hnests
      rw [tokens, if_neg (by simp), List.append_nil]
      exact ih hnests hopens

/-! ## The two spines -/

/-- The spine below an operator under which all others go. -/
def under : {level : Level} → Text level → Spine → Spine
  | _, simple _, spine => spine
  | _, subshell _ _, spine => spine
  | _, command c, spine => c.under spine
  | _, pipe left right, spine =>
      right.under [(.pipeCommand, plug (left.under spine) left.lastSimple.command)]
  | _, pipeline p, spine => p.under spine
  | _, connect left connective right, spine =>
      right.under
        [(connective.operator, plug (left.under spine) left.lastSimple.command)]
  | _, andOr a, spine => a.under spine
  | _, sequence left _ right, spine =>
      right.under [(.sequenceCommand, plug (left.under spine) left.lastSimple.command)]
  | _, complete l _, spine => l.under spine

attribute [local simp] spine outline under

/-! ## Where the two agree -/

/-- No pipeline of two or more commands stands behind `&&` or `||`. -/
def Single : Text .andOr → Prop
  | pipeline _ => True
  | connect left _ (command _) => left.Single
  | connect _ _ (pipe _ _) => False

/-- The and-ors after the first one have no pipeline behind `&&` or `||`. -/
def Composes : Text .list → Prop
  | andOr _ => True
  | sequence left _ right => left.Composes ∧ right.Single

attribute [local simp] Single Composes

theorem spine_command (c : Text .command) (spine : Spine) :
    c.spine spine = spine ∧ c.under spine = spine ∧ c.outline = [] := by
  cases c with
  | simple _ | subshell _ _ => exact ⟨rfl, rfl, rfl⟩

theorem descend_above {operator : Operator} {spine : Spine}
    (h : ∀ entry ∈ spine.head?, operator.goesBelow entry.1 = false) (c : Command) :
    operator.descend spine c = [(operator, plug spine c)] := by
  cases spine with
  | nil => rfl
  | cons entry spine => exact if_neg (by simp [h entry rfl])

theorem descend_below {operator : Operator} {entry : Operator × Command}
    (h : operator.goesBelow entry.1 = true) (spine : Spine) (c : Command) :
    operator.descend (entry :: spine) c = [entry, (operator, plug spine c)] :=
  if_pos h

/-- `|` goes below every other operator. -/
theorem spine_pipeline {entry : Operator × Command} (hentry : entry.1 ≠ .pipeCommand) :
    ∀ (p : Text .pipeline) (spine : Spine),
      p.spine (entry :: spine) = entry :: p.under spine
  | command c, spine => by
      rw [Text.spine, (c.spine_command _).1, under, (c.spine_command _).2.1]
  | pipe left right, spine => by
      have hbelow : Operator.pipeCommand.goesBelow entry.1 = true := by
        cases hoperator : entry.1 <;> simp [Operator.goesBelow, hoperator] at hentry ⊢
      rw [Text.spine, spine_pipeline hentry left spine, descend_below hbelow,
        (right.spine_command _).1, under, (right.spine_command _).2.1]

theorem spine_under (before : Command) : ∀ (a : Text .andOr) (spine : Spine),
    a.spine ((.sequenceCommand, before) :: spine) =
      (.sequenceCommand, before) :: a.under spine
  | pipeline p, spine => spine_pipeline (by simp) p spine
  | connect left connective right, spine => by
      have hbelow : connective.operator.goesBelow .sequenceCommand = true := by
        cases connective with
        | and | or => rfl
      rw [Text.spine, spine_under before left spine, descend_below hbelow,
        spine_pipeline (by simp) right, under]

/-- The text before an operator, as the left operand that the grammar gives it. -/
theorem plug_outline (t : Text level) (hopens : t.opens = false) :
    plug t.outline t.lastSimple.command = t.tree := by
  rw [tree_eq, lastTree_eq t hopens]

theorem under_pipeline : ∀ p : Text .pipeline, p.Nests → p.under [] = p.outline
  | command c, _ => by
      rw [under, (c.spine_command _).2.1, outline, (c.spine_command []).2.2]
  | pipe left right, ⟨hopens, hleft, _⟩ => by
      rw [under, under_pipeline left hleft, plug_outline left hopens,
        (right.spine_command _).2.1, outline, (right.spine_command []).2.2]

theorem head_pipeline (p : Text .pipeline) :
    ∀ entry ∈ p.outline.head?, entry.1 = .pipeCommand := by
  cases p with
  | command c => simp [outline, (c.spine_command []).2.2]
  | pipe left right => simp [outline]

theorem head_andOr (a : Text .andOr) :
    ∀ entry ∈ a.outline.head?, entry.1 ≠ .sequenceCommand := by
  cases a with
  | pipeline p =>
      intro entry hentry
      simp [head_pipeline p entry hentry]
  | connect left connective right => cases connective <;> simp [outline, Connective.operator]

theorem spine_pipeline_nil : ∀ p : Text .pipeline, p.Nests → p.spine [] = p.outline
  | command c, _ => by
      rw [Text.spine, (c.spine_command _).1, outline, (c.spine_command []).2.2]
  | pipe left right, ⟨hopens, hleft, _⟩ => by
      have habove : ∀ entry ∈ left.outline.head?,
          Operator.pipeCommand.goesBelow entry.1 = false := by
        intro entry hentry
        rw [head_pipeline left entry hentry]
        rfl
      rw [Text.spine, spine_pipeline_nil left hleft, descend_above habove,
        plug_outline left hopens, (right.spine_command _).1, outline,
        (right.spine_command []).2.2]

/-- The first and-or of a list is read as the grammar says. -/
theorem spine_andOr : ∀ a : Text .andOr, a.Nests → a.spine [] = a.outline
  | pipeline p, hnests => spine_pipeline_nil p hnests
  | connect left connective right, ⟨hopens, hleft, hright⟩ => by
      have habove : ∀ entry ∈ left.outline.head?,
          connective.operator.goesBelow entry.1 = false := by
        intro entry hentry
        have hne := head_andOr left entry hentry
        cases connective with
        | and | or => exact decide_eq_false hne
      have hpipe : connective.operator ≠ .pipeCommand := by
        cases connective <;> simp [Connective.operator]
      rw [Text.spine, spine_andOr left hleft, descend_above habove,
        plug_outline left hopens, spine_pipeline hpipe right, under_pipeline right hright,
        outline]

end Text

/-- A tree that no operator is the root of. -/
def Command.IsOperand : Command → Prop
  | .binary _ _ _ _ => False
  | .simple _ _ => True
  | .subshell _ _ => True

theorem plug_injective {spine spine' : Spine} {c c' : Command} (hc : c.IsOperand)
    (hc' : c'.IsOperand) (h : plug spine c = plug spine' c') : spine = spine' ∧ c = c' := by
  induction spine generalizing spine' with
  | nil =>
      cases spine' with
      | nil => exact ⟨rfl, h⟩
      | cons entry spine' =>
          rw [plug] at h
          subst h
          exact absurd hc id
  | cons entry spine ih =>
      cases spine' with
      | nil =>
          rw [plug] at h
          subst h
          exact absurd hc' id
      | cons entry' spine' =>
          simp only [plug, Command.binary.injEq] at h
          obtain ⟨hoperator, -, hleft, hright⟩ := h
          obtain ⟨rfl, rfl⟩ := ih hright
          exact ⟨by rw [Prod.ext hoperator hleft], rfl⟩

theorem plug_inj {spine spine' : Spine} {c : Command} (hc : c.IsOperand) :
    plug spine c = plug spine' c ↔ spine = spine' :=
  ⟨fun h => (plug_injective hc hc h).1, fun h => by rw [h]⟩

namespace Text

theorem under_andOr_iff : ∀ a : Text .andOr, a.Nests → (a.under [] = a.outline ↔ a.Single)
  | pipeline p, hnests => iff_of_true (under_pipeline p hnests) (by rw [Single]; trivial)
  | connect left connective (command c), ⟨hopens, hleft, _⟩ => by
      rw [under, under, (c.spine_command _).2.1, outline, outline,
        (c.spine_command []).2.2, Single, ← under_andOr_iff left hleft, ← plug_outline left hopens]
      simp only [List.cons.injEq, Prod.mk.injEq, true_and, and_true]
      exact plug_inj trivial
  | connect left connective (pipe p c), _ => by
      rw [under, under, (c.spine_command _).2.1, outline, Single]
      refine iff_of_false ?_ id
      intro h
      cases connective <;> simp [Connective.operator] at h

theorem spine_list_iff : ∀ l : Text .list, l.Nests → (l.spine [] = l.outline ↔ l.Composes)
  | andOr a, hnests => iff_of_true (spine_andOr a hnests) (by rw [Composes]; trivial)
  | sequence left joint right, ⟨_, hopens, hleft, hright⟩ => by
      have habove : ∀ entry ∈ (left.spine []).head?,
          Operator.sequenceCommand.goesBelow entry.1 = false := fun _ _ => rfl
      rw [Text.spine, descend_above habove, spine_under, outline, Composes,
        ← under_andOr_iff right hright, ← spine_list_iff left hleft,
        ← plug_outline left hopens]
      simp only [List.cons.injEq, Prod.mk.injEq, true_and]
      exact and_congr_left' (plug_inj trivial)

end Text

/-! ## One call -/

/-- A call on the cells, with an `ENDCMD_TOKEN` behind them, reads them all. -/
def Returns (tokens : List Token) (parsed : Parsed) : Prop :=
  readCommandStream (tokens ++ [Token.mk .endCmd none]) =
    some (some parsed, (tokens ++ [Token.mk .endCmd none]).map clear ++ endNext [])

def Reads (tokens : List Token) (c : Command) : Prop :=
  ∃ parsed, Returns tokens parsed ∧ Stores parsed.heap parsed.commandRoot c

theorem Stores.unique {heap : Ptr → Node} {ptr : Ptr} {c c' : Command}
    (h : Stores heap ptr c) (h' : Stores heap ptr c') : c = c' := by
  induction c generalizing ptr c' with
  | simple redirections word =>
      obtain ⟨htype, rfl, hu, -⟩ := h
      cases c' with
      | simple redirections' word' =>
          obtain ⟨-, rfl, hu', -⟩ := h'
          rw [Members.word.inj (hu.symm.trans hu')]
      | binary _ _ _ _ | subshell _ _ =>
          have htype' := h'.1
          rw [htype] at htype'
          cases htype'
  | subshell redirections body ih =>
      obtain ⟨htype, rfl, first, hu, hbody⟩ := h
      cases c' with
      | subshell redirections' body' =>
          obtain ⟨-, rfl, first', hu', hbody'⟩ := h'
          obtain rfl : first = first' := by simpa using hu.symm.trans hu'
          rw [ih hbody hbody']
      | binary _ _ _ _ | simple _ _ =>
          have htype' := h'.1
          rw [htype] at htype'
          cases htype'
  | binary operator redirections left right ihLeft ihRight =>
      obtain ⟨htype, rfl, first, second, hu, hleft, hright⟩ := h
      cases c' with
      | binary operator' redirections' left' right' =>
          obtain ⟨htype', rfl, first', second', hu', hleft', hright'⟩ := h'
          obtain ⟨rfl, rfl⟩ : first = first' ∧ second = second' := by
            simpa using hu.symm.trans hu'
          obtain rfl : operator = operator' := by simpa using htype.symm.trans htype'
          rw [ihLeft hleft hleft', ihRight hright hright']
      | simple _ _ | subshell _ _ =>
          have htype' := h'.1
          rw [htype] at htype'
          cases htype'

section Reads

variable {tokens : List Token} {c : Command} {parsed : Parsed}

/-- If no cell ends the command, all depends on what is built. -/
theorem returns_iff_of_running (hne : tokens ≠ []) (hwritten : Written tokens)
    (hrunning : ∀ cell ∈ tokens, cell.token ≠ .endCmd) :
    Returns tokens parsed ↔
      ∃ b, buildTokens .null (tokens ++ [Token.mk .endCmd none]) startBuilder = some b ∧
        parsed = ⟨b.heap, b.commandRoot⟩ := by
  have hread := readCommandStream_eq [] cleared_nil hrunning hwritten
    (show (Token.mk .endCmd none).token = .endCmd from rfl)
  rw [List.nil_append, List.nil_append, if_neg hne] at hread
  unfold Returns
  rw [hread]
  constructor
  · intro heq
    obtain ⟨b, hbuild, hb⟩ := Option.map_eq_some_iff.mp heq
    obtain ⟨hparsed, -⟩ := Prod.mk.inj hb
    exact ⟨b, hbuild, (Option.some.inj hparsed).symm⟩
  · rintro ⟨b, hbuild, rfl⟩
    rw [hbuild]
    rfl

/-- A cell that ends the command is the last one that is read. -/
theorem Returns.running (h : Returns tokens parsed) (hwritten : Written tokens) :
    ∀ cell ∈ tokens, cell.token ≠ .endCmd := by
  rcases exists_command tokens with hnone | ⟨command, endCell, after, rfl, hcommand, hend⟩
  · exact hnone
  · exfalso
    have hwritten' : Written command := fun cell hcell => hwritten cell (by simp [hcell])
    have hread := readCommandStream_eq (after ++ [Token.mk .endCmd none]) cleared_nil
      hcommand hwritten' hend
    rw [List.nil_append, List.nil_append] at hread
    unfold Returns at h
    rw [List.append_assoc, List.cons_append, hread] at h
    split at h
    · simp at h
    · obtain ⟨b, -, hb⟩ := Option.map_eq_some_iff.mp h
      have hlength := congrArg List.length (Prod.mk.inj hb).2
      cases after with
      | nil => simp [endNext] at hlength
      | cons cell after => simp [endNext] at hlength

theorem Returns.unique {parsed' : Parsed} (h : Returns tokens parsed)
    (h' : Returns tokens parsed') : parsed = parsed' := by
  unfold Returns at h h'
  simpa using h.symm.trans h'

theorem reads_iff_of_running (hne : tokens ≠ []) (hwritten : Written tokens)
    (hrunning : ∀ cell ∈ tokens, cell.token ≠ .endCmd) :
    Reads tokens c ↔
      ∃ b, buildTokens .null (tokens ++ [Token.mk .endCmd none]) startBuilder = some b ∧
        Stores b.heap b.commandRoot c := by
  unfold Reads
  constructor
  · rintro ⟨parsed, hreturns, hstores⟩
    obtain ⟨b, hbuild, rfl⟩ := (returns_iff_of_running hne hwritten hrunning).mp hreturns
    exact ⟨b, hbuild, hstores⟩
  · rintro ⟨b, hbuild, hstores⟩
    exact ⟨_, (returns_iff_of_running hne hwritten hrunning).mpr ⟨b, hbuild, rfl⟩, hstores⟩

end Reads

end Cs111Labs.Shell
