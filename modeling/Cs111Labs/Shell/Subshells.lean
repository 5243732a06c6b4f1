import Cs111Labs.Shell.Chains
import Cs111Labs.Shell.Lockstep

/-!
# Subshells at any depth

A `)` leaves all parentheses for the builder, so a body is read as it is written
only if nothing but its last command is a subshell.  A newline inside the
parentheses ends the command, and a semicolon before `)` waits for a word.
-/

namespace Cs111Labs.Shell

open Foundation

variable {level : Level} {b b' : Builder} {t : HeapTree}

/-! ## Operators behind an inner `)` -/

/-- An operator follows a `)`. -/
def OperatorOutside (cells : List Token) : Prop :=
  ∃ (before : List Token) (r : Redirections) (operator : Operator) (after : List Token),
    cells = before ++ ⟨.rbkt, none⟩ :: (r.tokens ++ ⟨operator.token, none⟩ :: after)

def EndsOutside (cells : List Token) : Prop :=
  ∃ (before : List Token) (r : Redirections), cells = before ++ ⟨.rbkt, none⟩ :: r.tokens

section Cells

variable {cells : List Token}

theorem OperatorOutside.append (h : OperatorOutside cells) (right : List Token) :
    OperatorOutside (cells ++ right) := by
  obtain ⟨before, r, operator, after, rfl⟩ := h
  exact ⟨before, r, operator, after ++ right, by simp⟩

theorem OperatorOutside.behind (h : OperatorOutside cells) (left : List Token) (cell : Token) :
    OperatorOutside (left ++ cell :: cells) := by
  obtain ⟨before, r, operator, after, rfl⟩ := h
  exact ⟨left ++ cell :: before, r, operator, after, by simp⟩

theorem EndsOutside.behind (h : EndsOutside cells) (left : List Token) (cell : Token) :
    EndsOutside (left ++ cell :: cells) := by
  obtain ⟨before, r, rfl⟩ := h
  exact ⟨left ++ cell :: before, r, by simp⟩

theorem EndsOutside.operator (h : EndsOutside cells) (operator : Operator)
    (right : List Token) : OperatorOutside (cells ++ ⟨operator.token, none⟩ :: right) := by
  obtain ⟨before, r, rfl⟩ := h
  exact ⟨before, r, operator, right, by simp⟩

/-- Two texts with an operator between them -/
theorem outside_operator {left right : List Token} (operator : Operator)
    (h : (OperatorOutside left ∨ EndsOutside left) ∨ OperatorOutside right ∨
      EndsOutside right) :
    OperatorOutside (left ++ ⟨operator.token, none⟩ :: right) ∨
      EndsOutside (left ++ ⟨operator.token, none⟩ :: right) := by
  rcases h with (hleft | hleft) | hright | hright
  · exact .inl (hleft.append _)
  · exact .inl (hleft.operator operator right)
  · exact .inl (hright.behind left _)
  · exact .inr (hright.behind left _)

theorem not_outside_operator {left right : List Token} {cell : Token}
    (hnot : ¬ OperatorOutside (left ++ cell :: right)) :
    ¬ OperatorOutside left ∧ ¬ OperatorOutside right :=
  ⟨fun hleft => hnot (hleft.append _), fun hright => hnot (hright.behind left cell)⟩

end Cells

/-- What stands before a cell without content can be read on its own. -/
theorem readableFrom_before {cell : Token} (hcontent : cell.content = none)
    {opened : Bool} {previous : TokenType} {before after : List Token}
    (h : readableFrom opened previous (before ++ cell :: after) = true) :
    readableFrom opened previous before = true := by
  induction opened, previous, before using readableFrom.induct with
  | case1 opened previous => rfl
  | case2 opened previous first hredirects =>
      simp [readableFrom, hredirects, hcontent] at h
  | case3 opened previous first hredirects operand cells ih =>
      simp only [List.cons_append, readableFrom, hredirects, if_true, Bool.and_eq_true] at h ⊢
      exact ⟨h.1, ih h.2⟩
  | case4 opened previous first cells hplain ih =>
      have hplain' : first.token.isRedirection = false := by simpa using hplain
      rw [List.cons_append, readableFrom_of_plain hplain', Bool.and_eq_true] at h
      rw [readableFrom_of_plain hplain', Bool.and_eq_true]
      exact ⟨h.1, ih h.2⟩

theorem exists_redirected {previous token : TokenType} {file : CString} {rest : List Token}
    (htoken : token.isRedirection = true) (h : Built b t)
    (heq : buildTokens previous (⟨token, none⟩ :: ⟨.word, some file⟩ :: rest) b = some b') :
    ∃ b₁, Built b₁ t ∧ b₁.isSubshell = b.isSubshell ∧ buildTokens .word rest b₁ = some b' := by
  simp only [buildTokens, htoken, if_true, Option.bind_some] at heq
  obtain ⟨b₁, hbuild, hrest⟩ := Option.bind_eq_some_iff.mp heq
  refine ⟨b₁, (h.redirection hbuild).1, ?_, hrest⟩
  obtain ⟨ptr, -, rfl⟩ := Option.map_eq_some_iff.mp hbuild
  rfl

theorem exists_behind_redirections (r : Redirections) {previous : TokenType}
    {rest : List Token} (h : Built b t)
    (heq : buildTokens previous (r.tokens ++ rest) b = some b') :
    ∃ b₁ previous', Built b₁ t ∧ b₁.isSubshell = b.isSubshell ∧
      buildTokens previous' rest b₁ = some b' := by
  obtain ⟨input, output⟩ := r
  cases input with
  | none =>
      cases output with
      | none => exact ⟨b, previous, h, rfl, heq⟩
      | some output =>
          obtain ⟨b₁, h₁, hsame, hrest⟩ := exists_redirected rfl h heq
          exact ⟨b₁, .word, h₁, hsame, hrest⟩
  | some input =>
      cases output with
      | none =>
          obtain ⟨b₁, h₁, hsame, hrest⟩ := exists_redirected rfl h heq
          exact ⟨b₁, .word, h₁, hsame, hrest⟩
      | some output =>
          obtain ⟨b₁, h₁, hsame₁, hrest₁⟩ := exists_redirected rfl h heq
          obtain ⟨b₂, h₂, hsame₂, hrest₂⟩ := exists_redirected rfl h₁ hrest₁
          exact ⟨b₂, .word, h₂, hsame₂.trans hsame₁, hrest₂⟩

/-- The root becomes an operator node and stays one. -/
theorem Built.operator_root (h : Built b t) {opened : Bool} {previous : TokenType}
    {cells : List Token} (hreadable : readableFrom opened previous cells = true)
    (hcells : OperatorOutside cells) (heq : buildTokens previous cells b = some b') :
    ∃ first, b'.LeftChild b'.commandRoot first := by
  obtain ⟨before, r, operator, after, rfl⟩ := hcells
  obtain ⟨previous₁, hrun⟩ := buildTokens_append (readableFrom_before rfl hreadable)
  rw [hrun] at heq
  obtain ⟨b₁, hbefore, heq⟩ := Option.bind_eq_some_iff.mp heq
  obtain ⟨-, t₁, h₁⟩ := h.raises_tokens hbefore
  rw [buildTokens_of_plain rfl] at heq
  obtain ⟨b₂, hrbkt, heq⟩ := Option.bind_eq_some_iff.mp heq
  obtain rfl := Option.some.inj hrbkt
  obtain ⟨b₃, previous₃, h₃, houtside, heq⟩ := exists_behind_redirections r h₁.rbkt heq
  rw [buildTokens_of_plain (isRedirection_operator operator)] at heq
  obtain ⟨b₄, hoperator, heq⟩ := Option.bind_eq_some_iff.mp heq
  obtain ⟨t₄, h₄, -⟩ := h₃.token hoperator (isRedirection_operator operator)
  rw [buildToken_operator] at hoperator
  obtain ⟨first, hroot⟩ := (h₃.raises_operator hoperator).2 houtside
  exact (h₄.raises_tokens heq).1.operator hroot

namespace Text

/-- A subshell is followed by an operator or it is the last command. -/
theorem opens_cases (t : Text level) (honeLine : t.OneLine) (hopens : t.opens = true) :
    OperatorOutside t.tokens ∨ EndsOutside t.tokens := by
  induction t with
  | simple _ => cases hopens
  | subshell body redirections _ =>
      exact .inr ⟨⟨.lbkt, none⟩ :: body.tokens, redirections, by simp [tokens]⟩
  | command _ ih | pipeline _ ih | andOr _ ih => exact ih honeLine hopens
  | pipe left right hleft hright =>
      refine outside_operator .pipeCommand ?_
      rcases Bool.or_eq_true_iff.mp hopens with hopens | hopens
      · exact .inl (hleft honeLine.1 hopens)
      · exact .inr (hright honeLine.2 hopens)
  | connect left connective right hleft hright =>
      rw [tokens, connective_token]
      refine outside_operator connective.operator ?_
      rcases Bool.or_eq_true_iff.mp hopens with hopens | hopens
      · exact .inl (hleft honeLine.1 hopens)
      · exact .inr (hright honeLine.2 hopens)
  | sequence left joint right hleft hright =>
      obtain ⟨rfl, honeLine₁, honeLine₂⟩ := honeLine
      refine outside_operator .sequenceCommand ?_
      rcases Bool.or_eq_true_iff.mp hopens with hopens | hopens
      · exact .inl (hleft honeLine₁ hopens)
      · exact .inr (hright honeLine₂ hopens)
  | complete l semicolon ih =>
      cases semicolon with
      | false => simpa [tokens] using ih honeLine hopens
      | true =>
          rw [tokens, if_pos rfl]
          exact outside_operator .sequenceCommand (.inl (ih honeLine hopens))

/-- The semicolon at the end of a body waits for a word. -/
def unfinished : {level : Level} → Text level → Bool
  | _, simple _ => false
  | _, subshell body _ => body.unfinished
  | _, command c => c.unfinished
  | _, pipe left right => left.unfinished || right.unfinished
  | _, pipeline p => p.unfinished
  | _, connect left _ right => left.unfinished || right.unfinished
  | _, andOr a => a.unfinished
  | _, sequence left _ right => left.unfinished || right.unfinished
  | _, complete l semicolon => l.unfinished || semicolon

theorem completeFrom_simple (s : SimpleText) (pending : Bool) (rest : List Token) :
    completeFrom pending (s.tokens ++ rest) = completeFrom false rest := by
  have hparts : ∀ parts : List Part,
      completeFrom false (parts.flatMap Part.tokens ++ rest) = completeFrom false rest := by
    intro parts
    induction parts with
    | nil => rfl
    | cons part parts ih =>
        rw [List.flatMap_cons, List.append_assoc, ← ih]
        cases part with
        | word _ | input _ | output _ =>
            simp [Part.tokens, completeFrom, completeFrom_of_plain, TokenType.isRedirection,
              TokenType.separates, TokenType.pendingAfter]
  rw [SimpleText.tokens, List.cons_append,
    completeFrom_of_plain (by simp [TokenType.isRedirection])]
  simpa [TokenType.separates, TokenType.pendingAfter] using hparts s.parts

theorem completeFrom_redirections (r : Redirections) (pending : Bool) (rest : List Token) :
    completeFrom pending (r.tokens ++ rest) = completeFrom pending rest := by
  obtain ⟨input, output⟩ := r
  cases input <;> cases output <;>
    simp [Redirections.tokens, completeFrom, TokenType.isRedirection]

theorem completeFrom_operator (operator : Operator) (pending : Bool) (rest : List Token) :
    completeFrom pending (⟨operator.token, none⟩ :: rest) =
      (!pending && completeFrom true rest) := by
  rw [completeFrom_of_plain (isRedirection_operator operator)]
  cases operator with
  | pipeCommand | andCommand | orCommand | sequenceCommand => rfl

theorem completeFrom_join {left right : Bool} {cells rest : List Token} (operator : Operator)
    (hleft : completeFrom left (⟨operator.token, none⟩ :: cells ++ rest) = true)
    (hright : completeFrom true (cells ++ rest) = true → completeFrom right rest = true) :
    completeFrom (left || right) rest = true := by
  rw [List.cons_append, completeFrom_operator, Bool.and_eq_true_iff] at hleft
  obtain ⟨hdone, hrest⟩ := hleft
  obtain rfl : left = false := by simpa using hdone
  exact hright hrest

/-- After the text a word is due or not; it was not at any operator inside. -/
theorem completeFrom_tokens (t : Text level) (honeLine : t.OneLine) {pending : Bool}
    {rest : List Token} (h : completeFrom pending (t.tokens ++ rest) = true) :
    completeFrom t.unfinished rest = true := by
  induction t generalizing pending rest with
  | simple s => rwa [tokens, completeFrom_simple] at h
  | subshell body redirections ih =>
      rw [tokens, List.cons_append, List.cons_append, completeFrom_of_plain rfl,
        Bool.and_eq_true_iff, List.append_assoc] at h
      have hrest := ih honeLine h.2
      rw [List.cons_append, completeFrom_of_plain rfl, Bool.and_eq_true_iff] at hrest
      exact (completeFrom_redirections redirections _ rest).symm.trans hrest.2
  | command _ ih | pipeline _ ih | andOr _ ih => exact ih honeLine h
  | pipe left right hleft hright =>
      rw [tokens, List.append_assoc] at h
      exact completeFrom_join .pipeCommand (hleft honeLine.1 h) (hright honeLine.2)
  | connect left connective right hleft hright =>
      rw [tokens, connective_token, List.append_assoc] at h
      exact completeFrom_join connective.operator (hleft honeLine.1 h) (hright honeLine.2)
  | sequence left joint right hleft hright =>
      obtain ⟨rfl, honeLine₁, honeLine₂⟩ := honeLine
      rw [tokens, List.append_assoc] at h
      exact completeFrom_join .sequenceCommand (hleft honeLine₁ h) (hright honeLine₂)
  | complete l semicolon ih =>
      cases semicolon with
      | false =>
          rw [tokens, if_neg (by simp), List.append_nil] at h
          rw [unfinished, Bool.or_false]
          exact ih honeLine h
      | true =>
          rw [tokens, if_pos rfl, List.append_assoc] at h
          have hjoin : completeFrom l.unfinished
              (⟨Operator.sequenceCommand.token, none⟩ :: [] ++ rest) = true := ih honeLine h
          exact completeFrom_join .sequenceCommand hjoin id

/-- Only the last command of a body can be a subshell. -/
theorem flat_of_operator {left : Text level} {right : List Token} (operator : Operator)
    (honeLine : left.OneLine)
    (hnot : ¬ OperatorOutside (left.tokens ++ ⟨operator.token, none⟩ :: right)) :
    left.opens = false := by
  cases hopens : left.opens with
  | false => rfl
  | true =>
      rcases left.opens_cases honeLine hopens with hinside | hends
      · exact absurd (hinside.append _) hnot
      · exact absurd (hends.operator operator right) hnot

theorem nests_of_oneLine (t : Text level) (honeLine : t.OneLine)
    (hunfinished : t.unfinished = false) (hnot : ¬ OperatorOutside t.tokens) :
    t.Nests := by
  induction t with
  | simple _ => trivial
  | subshell body redirections ih =>
      obtain ⟨hbody, -⟩ := not_outside_operator hnot
      exact ih honeLine hunfinished fun hinside => hbody (hinside.behind [] _)
  | command _ ih | pipeline _ ih | andOr _ ih => exact ih honeLine hunfinished hnot
  | pipe left right hleft hright =>
      obtain ⟨hdone₁, hdone₂⟩ := Bool.or_eq_false_iff.mp hunfinished
      obtain ⟨hnot₁, hnot₂⟩ := not_outside_operator hnot
      exact ⟨flat_of_operator .pipeCommand honeLine.1 hnot, hleft honeLine.1 hdone₁ hnot₁,
        hright honeLine.2 hdone₂ hnot₂⟩
  | connect left connective right hleft hright =>
      rw [tokens, connective_token] at hnot
      obtain ⟨hdone₁, hdone₂⟩ := Bool.or_eq_false_iff.mp hunfinished
      obtain ⟨hnot₁, hnot₂⟩ := not_outside_operator hnot
      exact ⟨flat_of_operator connective.operator honeLine.1 hnot,
        hleft honeLine.1 hdone₁ hnot₁, hright honeLine.2 hdone₂ hnot₂⟩
  | sequence left joint right hleft hright =>
      obtain ⟨rfl, honeLine₁, honeLine₂⟩ := honeLine
      obtain ⟨hdone₁, hdone₂⟩ := Bool.or_eq_false_iff.mp hunfinished
      obtain ⟨hnot₁, hnot₂⟩ := not_outside_operator hnot
      exact ⟨rfl, flat_of_operator .sequenceCommand honeLine₁ hnot,
        hleft honeLine₁ hdone₁ hnot₁, hright honeLine₂ hdone₂ hnot₂⟩
  | complete l semicolon ih =>
      obtain ⟨hdone, rfl⟩ := Bool.or_eq_false_iff.mp hunfinished
      rw [tokens, if_neg (by simp), List.append_nil] at hnot
      exact ⟨rfl, ih honeLine hdone hnot⟩

/-! ## What the builder has inside the parentheses -/

def list : Text .complete → Text .list
  | complete l _ => l

/-- The bodies of all subshells compose, and only the innermost one is redirected, with
one redirection at most. -/
def Joins : {level : Level} → Text level → Prop
  | _, simple _ => True
  | _, subshell body redirections =>
      body.list.Composes ∧ body.Joins ∧
        if body.opens then redirections = {}
        else redirections.input = none ∨ redirections.output = none
  | _, command c => c.Joins
  | _, pipe _ right => right.Joins
  | _, pipeline p => p.Joins
  | _, connect _ _ right => right.Joins
  | _, andOr a => a.Joins
  | _, sequence _ _ right => right.Joins
  | _, complete l _ => l.Joins

/-- Of a body: it can be read in parentheses. -/
def Sound (body : Text .complete) : Prop :=
  body.Nests ∧ body.list.Composes ∧ body.Joins

theorem stored_isOperand (t : Text level) (r l : Redirections) : (t.stored r l).IsOperand := by
  induction t with
  | simple _ | subshell _ _ _ => trivial
  | command _ ih | pipeline _ ih | andOr _ ih | complete _ _ ih => exact ih
  | pipe _ _ _ ih | connect _ _ _ _ ih | sequence _ _ _ _ ih => exact ih

theorem lastTree_isOperand (t : Text level) : t.lastTree.IsOperand := by
  induction t with
  | simple _ | subshell _ _ _ => trivial
  | command _ ih | pipeline _ ih | andOr _ ih | complete _ _ ih => exact ih
  | pipe _ _ _ ih | connect _ _ _ _ ih | sequence _ _ _ _ ih => exact ih

theorem stored_eq_tree_iff (body : Text .complete) (hnests : body.Nests) (r l : Redirections) :
    plug (body.spine []) (body.stored r l) = body.tree ↔
      body.list.Composes ∧ body.stored r l = body.lastTree := by
  have hspine : body.spine [] = body.outline ↔ body.list.Composes := by
    cases body with
    | complete l semicolon => exact spine_list_iff l hnests.2
  rw [tree_eq, ← hspine]
  constructor
  · exact plug_injective (body.stored_isOperand r l) body.lastTree_isOperand
  · rintro ⟨hsame, hlast⟩
    rw [hsame, hlast]

theorem first_eq_iff (r : Redirections) :
    r.first = r ↔ r.input = none ∨ r.output = none := by
  obtain ⟨input, output⟩ := r
  cases input with
  | none => simp [Redirections.first]
  | some input => simp [Redirections.first, eq_comm]

/-- With one redirection there is none for the last simple command. -/
theorem second_upon {r : Redirections} (h : r.first = r) (e : Redirections) :
    r.second.upon e = e := by
  obtain ⟨input, output⟩ := r
  rcases (first_eq_iff _).mp h with rfl | rfl
  · simp [Redirections.second, Redirections.upon]
  · cases input with
    | none | some _ => simp [Redirections.second, Redirections.upon]

theorem stored_iff (t : Text level) (hnests : t.Nests) :
    t.stored t.ends.1 t.ends.2 = t.lastTree ↔ t.Joins := by
  induction t with
  | simple s => exact iff_of_true rfl trivial
  | subshell body redirections ih =>
      rw [stored, lastTree, Joins, Command.subshell.injEq,
        stored_eq_tree_iff body hnests, ← ih hnests, ends]
      cases hopens : body.opens with
      | true =>
          simp only [if_true]
          constructor
          · rintro ⟨rfl, hcomposes, hsame⟩
            exact ⟨hcomposes, hsame, rfl⟩
          · rintro ⟨hcomposes, hsame, rfl⟩
            exact ⟨rfl, hcomposes, hsame⟩
      | false =>
          obtain ⟨hstored, hends⟩ := body.stored_flat hopens
          have hfirst : redirections.first.upon {} = redirections.first := by
            simp [Redirections.upon]
          simp only [hstored, hends, Bool.false_eq_true, if_false, ← first_eq_iff, hfirst]
          constructor
          · rintro ⟨heq, hcomposes, hsame⟩
            rw [second_upon heq] at hsame
            exact ⟨hcomposes, hsame, heq⟩
          · rintro ⟨hcomposes, hsame, heq⟩
            rw [second_upon heq]
            exact ⟨heq, hcomposes, hsame⟩
  | command _ ih | pipeline _ ih | andOr _ ih => exact ih hnests
  | pipe _ _ _ ih | connect _ _ _ _ ih => exact ih hnests.2.2
  | sequence _ _ _ _ ih => exact ih hnests.2.2.2
  | complete _ _ ih => exact ih hnests.2

/-! ## A body in parentheses -/

/-- What is built for the parentheses, and no node of it is changed later on -/
theorem exists_enclosed (body : Text .complete) (hnests : body.Nests) (rest : List Token) :
    ∃ c, buildTokens .null ((subshell body {}).tokens ++ rest) startBuilder =
        buildTokens .rbkt rest c ∧
      c.commandRoot = 0 ∧ c.isSubshell = false ∧ 0 < c.next ∧
      ∀ heap : Ptr → Node, (∀ a < c.next, heap a = c.heap a) →
        Stores heap 0 (.subshell {} (plug (body.spine []) (body.stored body.ends.1 body.ends.2))) := by
  obtain ⟨c, inner, hrun, hchained, hinner, hparse, hroot, -⟩ :=
    body.encloses hnests (body.chains hnests) startBuilder .null rest ⟨rfl, rfl, rfl⟩
  have hcells : (subshell body {}).tokens ++ rest =
      Token.mk .lbkt none :: (body.tokens ++ Token.mk .rbkt none :: rest) := by
    simp [tokens, Redirections.tokens]
  refine ⟨c, by rw [hcells, hrun], hroot, hchained.outside,
    (Nat.zero_le _).trans_lt hchained.lt_next, fun heap hsame => ?_⟩
  have hinner' := hsame inner (hchained.lt.trans hchained.lt_next)
  have hparse' := hsame c.parseCommand hchained.lt_next
  have hstores := hchained.stores heap (fun a _ hlt _ _ => hsame a hlt)
    ⟨(c.heap inner).redirections, hinner'⟩ ⟨(c.heap c.parseCommand).redirections, hparse'⟩
  have hzero : startBuilder.parseCommand = 0 := rfl
  rw [hinner', hparse', hinner, hparse, hzero] at hstores
  cases hopens : body.opens with
  | true => simpa [hopens] using hstores
  | false =>
      rw [(body.stored_flat hopens).1] at hstores ⊢
      simpa [hopens] using hstores

theorem Sound.stored {body : Text .complete} (h : body.Sound) :
    plug (body.spine []) (body.stored body.ends.1 body.ends.2) = body.tree :=
  (stored_eq_tree_iff body h.1 _ _).mpr ⟨h.2.1, (stored_iff body h.1).mpr h.2.2⟩

theorem nests_of_reads {body : Text .complete}
    (h : Reads (subshell body {}).tokens (.subshell {} body.tree)) : body.Nests := by
  obtain ⟨parsed, hreturns, -⟩ := id h
  have hrunning := hreturns.running (subshell body {}).written
  have honeLine : body.OneLine := (oneLine_iff (subshell body {})).mpr hrunning
  obtain ⟨b, hbuild, hstores⟩ := (reads_iff_of_running (subshell body {}).tokens_ne_nil
    (subshell body {}).written hrunning).mp h
  refine nests_of_oneLine body honeLine ?_ fun hinside => ?_
  · have hcomplete := (buildTokens_wellFormed_iff hbuild).mp ⟨_, hstores⟩
    have hend := completeFrom_tokens (subshell body {}) honeLine hcomplete
    rw [completeFrom_of_plain rfl, Bool.and_eq_true_iff] at hend
    simpa [unfinished, completeFrom, TokenType.pendingAfter, TokenType.separates] using hend.2
  · have hreadable : readableFrom false .null
        ((subshell body {}).tokens ++ [Token.mk .endCmd none]) = true := by
      rw [readableFrom_tokens]
      rfl
    have hcells : OperatorOutside ((subshell body {}).tokens ++ [Token.mk .endCmd none]) :=
      ((hinside.behind [] _).append _).append _
    obtain ⟨first, -, operator, second, htype, -⟩ :=
      Built.start.operator_root hreadable hcells hbuild
    have htype' := hstores.1
    rw [htype] at htype'
    cases htype'

theorem sound_of_reads {body : Text .complete}
    (h : Reads (subshell body {}).tokens (.subshell {} body.tree)) : body.Sound := by
  have hnests := nests_of_reads h
  obtain ⟨c, hrun, hroot, -, -, hstores⟩ :=
    exists_enclosed body hnests [Token.mk .endCmd none]
  have hend : buildTokens .rbkt [Token.mk .endCmd none] c = some c := by
    rw [buildTokens_of_plain rfl]
    rfl
  obtain ⟨b, hbuild, hb⟩ := (reads_iff_of_running (subshell body {}).tokens_ne_nil
    (subshell body {}).written
    ((oneLine_iff (subshell body {})).mp (Nests.oneLine hnests))).mp h
  obtain rfl : c = b := Option.some.inj ((hrun.trans hend).symm.trans hbuild)
  rw [hroot] at hb
  have hsame := (hstores c.heap fun _ _ => rfl).unique hb
  have hbody := (stored_eq_tree_iff body hnests _ _).mp (Command.subshell.inj hsame).2
  exact ⟨hnests, hbody.1, (stored_iff body hnests).mp hbody.2⟩

end Text

/-! ## Operators behind the parentheses -/

section Behind

variable {c : Builder} {d : Nat} {kept : Ptr → Node}

/-- The runs behind the first command, up to the end -/
theorem Lock.tokens (h : Lock d kept b c) (hbuilt : Built b t) {rest : List Token}
    (hhead : ∀ cell ∈ rest.head?, ∃ operator : Operator, cell = ⟨operator.token, none⟩)
    {previous previous' : TokenType}
    (heq : buildTokens previous (rest ++ [Token.mk .endCmd none]) b = some b') :
    ∃ c', buildTokens previous' (rest ++ [Token.mk .endCmd none]) c = some c' ∧
      Lock d kept b' c' := by
  cases rest with
  | nil =>
      rw [List.nil_append, buildTokens_of_plain rfl] at heq ⊢
      obtain rfl : b = b' := Option.some.inj heq
      exact ⟨c, rfl, h⟩
  | cons cell cells =>
      obtain ⟨operator, rfl⟩ := hhead cell rfl
      rw [List.cons_append, buildTokens_of_plain (isRedirection_operator operator),
        buildToken_operator] at heq ⊢
      obtain ⟨b₁, hbuild, hrest⟩ := Option.bind_eq_some_iff.mp heq
      obtain ⟨c₁, hbuild', hpaired⟩ := h.operator hbuilt hbuild
      obtain ⟨b₁', t₁, hsome, hbuilt₁, -⟩ := hbuilt.operator operator.goesBelow operator
      obtain rfl : b₁' = b₁ := Option.some.inj (hsome.symm.trans hbuild)
      rw [hbuild', Option.bind_some]
      exact hpaired.tokens hbuilt₁ hrest

/-- The simple command is one node, whatever the subshell is in the other run. -/
theorem lock_simple (s : SimpleText) (hroot : c.commandRoot = 0)
    (houtside : c.isSubshell = false) (hpos : 0 < c.next)
    (htype : (c.heap 0).type = some .subshellCommand) :
    Lock (c.next - 1) c.heap (startBuilder.write 0 s.node) c where
  pos := Nat.one_pos
  next := (Nat.add_sub_cancel' hpos).symm
  commandRoot := hroot
  isSubshell := houtside
  subshellRoot ptr hptr := by simp [Builder.write, startBuilder] at hptr
  heap := by
    intro ptr hne hlt
    exact absurd (Nat.lt_one_iff.mp hlt) hne
  simple := by simpa [Builder.write] using s.node_simple.type
  subshell := htype
  kept _ _ := rfl

end Behind

/-- A simple command in front of the cells, and a subshell in its place -/
theorem reads_replaceFirst {body : Text .complete} (hsound : body.Sound) (s : SimpleText)
    {rest : List Token} (hwritten : Written rest)
    (hhead : ∀ cell ∈ rest.head?, ∃ operator : Operator, cell = ⟨operator.token, none⟩)
    {tree : Command} (h : Reads (s.tokens ++ rest) tree) :
    Reads ((Text.subshell body {}).tokens ++ rest)
      (tree.replaceFirst (.subshell {} body.tree)) := by
  have hwritten₁ : Written (s.tokens ++ rest) :=
    List.forall_mem_append.mpr ⟨(Text.simple s).written, hwritten⟩
  have hwritten₂ : Written ((Text.subshell body {}).tokens ++ rest) :=
    List.forall_mem_append.mpr ⟨(Text.subshell body {}).written, hwritten⟩
  obtain ⟨parsed, hreturns, -⟩ := id h
  have hrunning₁ := hreturns.running hwritten₁
  have hrunning₂ : ∀ cell ∈ (Text.subshell body {}).tokens ++ rest, cell.token ≠ .endCmd :=
    List.forall_mem_append.mpr ⟨(Text.oneLine_iff (.subshell body {})).mp hsound.1.oneLine,
      (List.forall_mem_append.mp hrunning₁).2⟩
  obtain ⟨b', hbuild, hstores⟩ := (reads_iff_of_running
    (by simp [SimpleText.tokens]) hwritten₁ hrunning₁).mp h
  rw [reads_iff_of_running (by simp [Text.tokens]) hwritten₂ hrunning₂]
  -- The first run behind the simple command
  have hsimple : buildTokens .null s.tokens startBuilder = some (startBuilder.write 0 s.node) := by
    have hfirst := buildTokens_simple s .null [] (b := startBuilder) (by simp [startBuilder])
    rw [List.append_nil] at hfirst
    exact hfirst
  obtain ⟨-, t, hbuilt⟩ := Built.start.raises_tokens hsimple
  obtain ⟨hraises, t', hbuilt'⟩ := Built.start.raises_tokens hbuild
  rw [List.append_assoc, buildTokens_simple s .null _ (by simp [startBuilder])] at hbuild
  -- The second run behind the parentheses
  obtain ⟨c, hrun, hroot, houtside, hpos, hkept⟩ :=
    Text.exists_enclosed body hsound.1 (rest ++ [Token.mk .endCmd none])
  rw [hsound.stored] at hkept
  have hlock := lock_simple s hroot houtside hpos (hkept c.heap fun _ _ => rfl).1
  obtain ⟨c', hbuild', hlock'⟩ := hlock.tokens hbuilt hhead hbuild
  have hx : Stores c'.heap 0 (.subshell {} body.tree) := by
    refine hkept c'.heap fun a hlt => hlock'.kept a ?_
    exact Nat.le_sub_one_of_lt hlt
  rw [List.append_assoc, hrun]
  refine ⟨c', hbuild', ?_⟩
  rw [hlock'.commandRoot]
  exact (hlock'.stores_replaceFirst hraises.root hbuilt'.root hbuilt'.stored hbuilt'.nodup
    hbuilt'.bound hx hstores).2

/-- The body in parentheses is a subshell, and the operators behind it take it as they
take a simple command. -/
def SubshellParses (body : Text .complete) : Prop :=
  Reads (Text.subshell body {}).tokens (.subshell {} body.tree) ∧
    ∀ (s : SimpleText) (operator : Operator) (rest : List Token) (tree : Command),
      Written rest → Reads (s.tokens ++ ⟨operator.token, none⟩ :: rest) tree →
        Reads ((Text.subshell body {}).tokens ++ ⟨operator.token, none⟩ :: rest)
          (tree.replaceFirst (.subshell {} body.tree))

/-- `a` and `b` on two lines -/
def twoLines : Text .complete :=
  .complete (.sequence (.andOr (letter 97)) .newline (letter 98)) false

theorem subshellParses_iff (body : Text .complete) : SubshellParses body ↔ body.Sound := by
  constructor
  · exact fun h => Text.sound_of_reads h.1
  · intro hsound
    have hletter : Reads ((SimpleText.mk [97] []).tokens ++ []) (letter 97).tree :=
      (Text.reads_andOr_iff (a := letter 97) rfl).mpr rfl
    have halone := reads_replaceFirst hsound ⟨[97], []⟩ (List.forall_mem_nil _) (by simp)
      hletter
    rw [List.append_nil] at halone
    refine ⟨halone, fun s operator rest tree hwritten h => ?_⟩
    refine reads_replaceFirst hsound s (List.forall_mem_cons.mpr ⟨?_, hwritten⟩) ?_ h
    · cases operator with
      | pipeCommand | andCommand | orCommand | sequenceCommand => simp [Operator.token]
    · simp

/-- The newline ends the command before the `)`. -/
theorem twoLines_not_subshellParses : ¬ ∀ body : Text .complete, SubshellParses body := by
  intro hall
  have hnests : twoLines.Nests := Text.nests_of_reads (hall twoLines).1
  obtain ⟨-, hjoint, -⟩ := hnests
  cases hjoint

end Cs111Labs.Shell
