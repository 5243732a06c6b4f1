import Cs111Labs.Shell.OwnRedirections

/-!
# Subshells inside subshells

The builder keeps one pointer to a subshell, the one that was opened last.  As
long as only the last command of a body is a subshell, every operator is read
inside the right parentheses; all redirections behind them go to the innermost
subshell and to the last simple command.
-/

namespace Cs111Labs.Shell

variable {b b' : Builder} {ptr inner : Ptr} {sub : Option Ptr} {root : Nat}

/-! ## What is stored for the last command -/

def SimpleText.words (s : SimpleText) : List CString :=
  s.first :: s.parts.filterMap Part.word?

namespace Redirections

/-- The redirection right behind `)` -/
def first (r : Redirections) : Redirections :=
  if r.input.isSome then ⟨r.input, none⟩ else r

def second (r : Redirections) : Redirections :=
  if r.input.isSome then ⟨none, r.output⟩ else {}

def upon (r e : Redirections) : Redirections :=
  ⟨r.input.or e.input, r.output.or e.output⟩

end Redirections

namespace Text

/-- The last command, with the redirections `r` of the innermost subshell and `l`
of the last simple command. -/
def stored : {level : Level} → Text level → Redirections → Redirections → Command
  | _, simple s, _, l => .simple l s.words
  | _, subshell body _, r, l =>
      .subshell (if body.opens then {} else r) (plug (body.spine []) (body.stored r l))
  | _, command c, r, l => c.stored r l
  | _, pipe _ right, r, l => right.stored r l
  | _, pipeline p, r, l => p.stored r l
  | _, connect _ _ right, r, l => right.stored r l
  | _, andOr a, r, l => a.stored r l
  | _, sequence _ _ right, r, l => right.stored r l
  | _, complete t _, r, l => t.stored r l

/-- These redirections behind the text -/
def ends : {level : Level} → Text level → Redirections × Redirections
  | _, simple s => ({}, s.node.redirections)
  | _, subshell body redirections =>
      (redirections.first.upon (if body.opens then body.ends.1 else {}),
        redirections.second.upon body.ends.2)
  | _, command c => c.ends
  | _, pipe _ right => right.ends
  | _, pipeline p => p.ends
  | _, connect _ _ right => right.ends
  | _, andOr a => a.ends
  | _, sequence _ _ right => right.ends
  | _, complete t _ => t.ends

end Text

/-! ## Behind the parentheses -/

/--
At `ptr` there is a subshell, with the one that was opened last at `inner`.  It
is stored with whatever redirections `inner` and `parse_command` get.
-/
structure Chained (b : Builder) (ptr : Ptr) (f : Redirections → Redirections → Command)
    (inner : Ptr) : Prop where
  outside : b.isSubshell = false
  subshell : b.subshellRoot = some inner
  le : ptr ≤ inner
  lt : inner < b.parseCommand
  lt_next : b.parseCommand < b.next
  stores : ∀ heap' : Ptr → Node,
    (∀ a, ptr ≤ a → a < b.next → a ≠ inner → a ≠ b.parseCommand → heap' a = b.heap a) →
    (∃ r, heap' inner = (b.heap inner).withRedirections r) →
    (∃ l, heap' b.parseCommand = (b.heap b.parseCommand).withRedirections l) →
      Stores heap' ptr (f (heap' inner).redirections (heap' b.parseCommand).redirections)

variable {f : Redirections → Redirections → Command}

theorem Chained.withRedirections (h : Chained b ptr f inner) {a : Ptr}
    (ha : a = inner ∨ a = b.parseCommand) (r : Redirections) :
    Chained (b.withRedirections a r) ptr f inner where
  outside := h.outside
  subshell := h.subshell
  le := h.le
  lt := h.lt
  lt_next := h.lt_next
  stores := by
    intro heap' hsame hinner hparse
    have hchanged : ∀ x, (∃ r', heap' x =
        ((b.withRedirections a r).heap x).withRedirections r') →
        ∃ r', heap' x = (b.heap x).withRedirections r' := by
      rintro x ⟨r', hx⟩
      rw [withRedirections_heap] at hx
      split at hx
      · exact ⟨r', hx⟩
      · exact ⟨r', hx⟩
    refine h.stores heap' (fun x hlow hhigh hne hne' => ?_) (hchanged _ hinner)
      (hchanged _ hparse)
    rw [hsame x hlow hhigh hne hne', withRedirections_heap, if_neg]
    rintro rfl
    rcases ha with rfl | rfl
    · exact hne rfl
    · exact hne' rfl

/-- The first redirection goes to `inner` and the second to `parse_command`. -/
theorem Chained.redirections (h : Chained b ptr f inner) (r : Redirections)
    (rest : List Token) :
    buildTokens .rbkt (r.tokens ++ rest) b =
      buildTokens (if r.tokens = [] then .rbkt else .word) rest
        ((b.withRedirections inner (r.first.upon (b.heap inner).redirections)).withRedirections
          b.parseCommand (r.second.upon (b.heap b.parseCommand).redirections)) := by
  have hne : b.parseCommand ≠ inner := h.lt.ne'
  have hroot := h.subshell
  have hheap : ∀ r', (b.withRedirections inner r').heap b.parseCommand =
      b.heap b.parseCommand := fun r' => by rw [withRedirections_heap, if_neg hne]
  have hself : ∀ r', (b.withRedirections inner r').withRedirections b.parseCommand
      (b.heap b.parseCommand).redirections = b.withRedirections inner r' := by
    intro r'
    rw [← hheap r']
    exact withRedirections_self (b.withRedirections inner r') b.parseCommand
  have hempty : ∀ e : Redirections, Redirections.upon {} e = e := fun e => by
    simp [Redirections.upon]
  obtain ⟨input, output⟩ := r
  cases input with
  | none =>
      have hsecond : (Redirections.mk none output).second = {} := rfl
      rw [hsecond, hempty, hself]
      cases output with
      | none =>
          have hfirst : (Redirections.mk none none).first.upon (b.heap inner).redirections =
              (b.heap inner).redirections := hempty _
          rw [hfirst, withRedirections_self]
          rfl
      | some output =>
          simp [Redirections.tokens, buildTokens, TokenType.isRedirection, buildRedirection,
            setRedirection, hroot, Redirections.first, Redirections.upon,
            Builder.withRedirections, Node.withRedirections, Node.redirections]
  | some input =>
      cases output with
      | none =>
          have hsecond : (Redirections.mk (some input) none).second = {} := rfl
          rw [hsecond, hempty, hself]
          simp [Redirections.tokens, buildTokens, TokenType.isRedirection, buildRedirection,
            setRedirection, hroot, Redirections.first, Redirections.upon,
            Builder.withRedirections, Node.withRedirections, Node.redirections]
      | some output =>
          simp [Redirections.tokens, buildTokens, TokenType.isRedirection, buildRedirection,
            setRedirection, hroot, Redirections.first, Redirections.second, Redirections.upon,
            Builder.withRedirections, Node.withRedirections, Node.redirections,
            Builder.write, hne]

/-! ## Texts in parentheses -/

/-- Everything inside the parentheses is below `root`, also behind the `)`. -/
def Builder.Heads (b : Builder) : Option Ptr → Ptr → Prop
  | none, root => b.commandRoot = root
  | some sub, root =>
      b.heap sub = { type := some .subshellCommand, u := .subshellCommand (some root) }

theorem Builder.Tops.heads (h : b.Tops sub root) : b.Heads sub root := by
  cases sub with
  | none => exact h.2
  | some sub => exact h.2.2

/-- `parse_command` is the node that was allocated last, and nothing is in it. -/
structure Builder.New (b : Builder) : Prop where
  next : b.next = b.parseCommand + 1
  type : (b.heap b.parseCommand).type = none
  redirections : (b.heap b.parseCommand).redirections = {}

/-- The cells, in parentheses, go to the node at `parse_command`. -/
def Encloses (body : List Token) (f : Redirections → Redirections → Command)
    (e : Redirections × Redirections) : Prop :=
  ∀ (b : Builder) (previous : TokenType) (rest : List Token), b.New →
    ∃ b' inner, buildTokens previous
        (Token.mk .lbkt none :: (body ++ Token.mk .rbkt none :: rest)) b =
        buildTokens .rbkt rest b' ∧
      Chained b' b.parseCommand f inner ∧ (b'.heap inner).redirections = e.1 ∧
      (b'.heap b'.parseCommand).redirections = e.2 ∧
      b'.commandRoot = b.commandRoot ∧ ∀ a < b.parseCommand, b'.heap a = b.heap a

/-- The cells lead to a subshell behind a longer spine. -/
def Chains (tokens : List Token) (last : TokenType) (step : Spine → Spine)
    (f : Redirections → Redirections → Command) (e : Redirections × Redirections) : Prop :=
  ∀ (b : Builder) (sub : Option Ptr) (root : Nat) (spine : Spine) (node : Node)
    (previous : TokenType) (rest : List Token), Pending b sub root spine node →
    node.type = none → node.redirections = {} →
    ∃ b' root' leaf inner, buildTokens previous (tokens ++ rest) b =
        buildTokens last rest b' ∧
      b'.Heads sub root' ∧ Descends b'.heap (bodyStart sub) root' (step spine) leaf ∧
      Chained b' leaf f inner ∧ (b'.heap inner).redirections = e.1 ∧
      (b'.heap b'.parseCommand).redirections = e.2 ∧ Outside sub b b'

theorem pending_lbkt (h : b.New) :
    Pending (buildLbkt b) (some b.parseCommand) b.next [] { u := .subshellCommand none } ∧
      ∀ a < b.parseCommand, (buildLbkt b).heap a = b.heap a := by
  have hlt : b.parseCommand < b.next := h.next ▸ Nat.lt_succ_self _
  refine ⟨?_, fun a ha => ?_⟩
  · exact {
      tops := by
        refine ⟨rfl, rfl, ?_⟩
        obtain ⟨hinput, houtput⟩ := Redirections.mk.inj h.redirections
        simp [buildLbkt, Builder.write, hlt.ne, hinput, houtput]
      descends := ⟨hlt, rfl⟩
      node := by simp [buildLbkt, Builder.write]
      next := rfl }
  · simp [buildLbkt, Builder.write, ha.ne, (ha.trans hlt).ne]

variable {body : List Token} {step : Spine → Spine} {s : SimpleText}
  {e : Redirections × Redirections} {last : TokenType}

/-- Only simple commands inside -/
theorem Leads.encloses (h : Leads body step s) :
    Encloses body (fun r l => .subshell r (plug (step []) (.simple l s.words)))
      ({}, s.node.redirections) := by
  intro b previous rest hnew
  obtain ⟨hpending, hframe⟩ := pending_lbkt hnew
  obtain ⟨b₂, root₂, node₂, word₂, hrun, h₂, hsimple, hcommand, houtside⟩ :=
    h (buildLbkt b) _ _ _ _ .lbkt (Token.mk .rbkt none :: rest) hpending (by simp)
  obtain ⟨hroot, hbelow⟩ := houtside b.parseCommand rfl
  obtain ⟨-, hsubshell, hsub⟩ := h₂.tops
  have hle := h₂.descends.le
  have hlt : b.parseCommand < b₂.parseCommand := hle.1.trans hle.2
  have hlast : (b₂.heap b₂.parseCommand).redirections = s.node.redirections := by
    rw [h₂.node]
    exact (Command.simple.inj hcommand).1
  have hword : word₂ = s.words := (Command.simple.inj hcommand).2
  refine ⟨{ b₂ with isSubshell := false }, b.parseCommand, ?_, ?_, ?_, hlast, hroot,
    fun a ha => (hbelow a ha).trans (hframe a ha)⟩
  · rw [buildTokens_of_plain rfl]
    have hlbkt : buildToken (Token.mk .lbkt none) b = some (buildLbkt b) := rfl
    rw [hlbkt, Option.bind_some, hrun, buildTokens_of_plain rfl]
    rfl
  · exact {
      outside := rfl
      subshell := hsubshell
      le := Nat.le_refl _
      lt := hlt
      lt_next := h₂.next ▸ Nat.lt_succ_self _
      stores := by
        rintro heap' hsame ⟨r, hinner⟩ ⟨l, hparse⟩
        have hinner : heap' b.parseCommand = (b₂.heap b.parseCommand).withRedirections r :=
          hinner
        have hparse : heap' b₂.parseCommand =
            (b₂.heap b₂.parseCommand).withRedirections l := hparse
        have hnext : b₂.parseCommand < b₂.next := h₂.next ▸ Nat.lt_succ_self _
        have hdescends : Descends heap' (bodyStart (some b.parseCommand)) root₂ (step [])
            b₂.parseCommand := h₂.descends.congr_of_mem fun a hlow hhigh =>
          hsame a (Nat.le_of_lt hlow) (hhigh.trans hnext) (Nat.ne_of_gt hlow) hhigh.ne
        refine ⟨by rw [hinner, hsub]; rfl, rfl, root₂, by rw [hinner, hsub]; rfl, ?_⟩
        refine hdescends.stores ⟨?_, rfl, ?_, by simp [SimpleText.words]⟩
        · rw [hparse, h₂.node]
          exact hsimple.type
        · rw [hparse, h₂.node, ← hword]
          exact hsimple.u }
  · rw [hsub]
    rfl

/-- Another subshell as the last command inside -/
theorem Chains.encloses (h : Chains body last step f e) :
    Encloses body (fun r l => .subshell {} (plug (step []) (f r l))) e := by
  intro b previous rest hnew
  obtain ⟨hpending, hframe⟩ := pending_lbkt hnew
  obtain ⟨b₂, root₂, leaf, inner, hrun, hsub, hdescends, hchained, hinner, hparse, houtside⟩ :=
    h (buildLbkt b) _ _ _ _ .lbkt (Token.mk .rbkt none :: rest) hpending rfl rfl
  obtain ⟨hroot, hbelow⟩ := houtside b.parseCommand rfl
  have hsub : b₂.heap b.parseCommand =
      { type := some .subshellCommand, u := .subshellCommand (some root₂) } := hsub
  have hle := hdescends.le
  have hlow : b.parseCommand < leaf := hle.1.trans hle.2
  have hlt : b.parseCommand < inner := hlow.trans_le hchained.le
  refine ⟨b₂, inner, ?_, ?_, hinner, hparse, hroot,
    fun a ha => (hbelow a ha).trans (hframe a ha)⟩
  · rw [buildTokens_of_plain rfl]
    have hlbkt : buildToken (Token.mk .lbkt none) b = some (buildLbkt b) := rfl
    have hrbkt : buildToken (Token.mk .rbkt none) b₂ = some b₂ := by
      have houtside := hchained.outside
      obtain ⟨heap, next, commandRoot, parseCommand, subshellRoot, isSubshell⟩ := b₂
      obtain rfl : isSubshell = false := houtside
      rfl
    rw [hlbkt, Option.bind_some, hrun, buildTokens_of_plain rfl, hrbkt, Option.bind_some]
  · exact {
      outside := hchained.outside
      subshell := hchained.subshell
      le := hlt.le
      lt := hchained.lt
      lt_next := hchained.lt_next
      stores := by
        intro heap' hsame hinner' hparse'
        have hptr : heap' b.parseCommand = b₂.heap b.parseCommand :=
          hsame b.parseCommand (Nat.le_refl _) ((hlt.trans hchained.lt).trans hchained.lt_next)
            hlt.ne (hlt.trans hchained.lt).ne
        have hspine : Descends heap' (bodyStart (some b.parseCommand)) root₂ (step [])
            leaf := hdescends.congr_of_mem fun a hlow' hhigh =>
          hsame a (Nat.le_of_lt hlow')
            ((hhigh.trans_le hchained.le).trans (hchained.lt.trans hchained.lt_next))
            (hhigh.trans_le hchained.le).ne ((hhigh.trans_le hchained.le).trans hchained.lt).ne
        have hbody := hchained.stores heap'
          (fun a hlow' => hsame a (hlow.le.trans hlow')) hinner' hparse'
        exact ⟨by rw [hptr, hsub], by rw [hptr, hsub]; rfl, root₂, by rw [hptr, hsub],
          hspine.stores hbody⟩ }

/-- The redirections behind the parentheses -/
theorem Encloses.chains (h : Encloses body f e) (r : Redirections) :
    Chains (⟨.lbkt, none⟩ :: body ++ ⟨.rbkt, none⟩ :: r.tokens)
      (if r.tokens = [] then .rbkt else .word) id f
      (r.first.upon e.1, r.second.upon e.2) := by
  intro b sub root spine node previous rest hpending htype hredirections
  have hnew : b.New := ⟨hpending.next, by rw [hpending.node]; exact htype,
    by rw [hpending.node]; exact hredirections⟩
  obtain ⟨b₁, inner, hrun, hchained, hinner, hparse, hroot, hframe⟩ :=
    h b previous (r.tokens ++ rest) hnew
  have hle := hpending.descends.le
  have hlt := hchained.lt
  have hptr : b.parseCommand ≤ inner := hchained.le
  set b₂ := (b₁.withRedirections inner (r.first.upon e.1)).withRedirections b₁.parseCommand
    (r.second.upon e.2) with hb₂
  have hsame : ∀ a < b.parseCommand, b₂.heap a = b.heap a := by
    intro a ha
    have hne : a ≠ inner := (ha.trans_le hptr).ne
    have hne' : a ≠ b₁.parseCommand := ((ha.trans_le hptr).trans hlt).ne
    rw [hb₂, withRedirections_heap, if_neg hne', withRedirections_heap, if_neg hne]
    exact hframe a ha
  refine ⟨b₂, root, b.parseCommand, inner, ?_, ?_, hpending.descends.congr hsame, ?_, ?_, ?_, ?_⟩
  · have hcells : (⟨.lbkt, none⟩ :: body ++ ⟨.rbkt, none⟩ :: r.tokens) ++ rest =
        Token.mk .lbkt none :: (body ++ Token.mk .rbkt none :: (r.tokens ++ rest)) := by
      simp
    rw [hcells, hrun, hchained.redirections, hinner, hparse]
  · cases sub with
    | none => exact hroot.trans hpending.tops.2
    | some sub =>
        exact (hsame sub ((Nat.lt_succ_self sub).trans_le (hle.1.trans hle.2))).trans
          hpending.tops.2.2
  · exact (hchained.withRedirections (.inl rfl) _).withRedirections (.inr rfl) _
  · rw [hb₂, withRedirections_heap, if_neg hlt.ne, withRedirections_heap, if_pos rfl]
    rfl
  · have hself : b₂.parseCommand = b₁.parseCommand := rfl
    rw [hself, hb₂, withRedirections_heap, if_pos rfl]
    rfl
  · rintro ptr rfl
    refine ⟨hroot, fun a ha => hsame a ?_⟩
    exact ha.trans ((Nat.lt_succ_self ptr).trans_le (hle.1.trans hle.2))

/-- Simple commands before the subshell -/
theorem Leads.chains {left right : List Token} {step' : Spine → Spine}
    (hleft : Leads left step s) (hright : Chains right last step' f e)
    (operator : Operator) :
    Chains (left ++ ⟨operator.token, none⟩ :: right) last
      (fun spine => step' (operator.descend (step spine) s.command)) f e := by
  intro b sub root spine node previous rest hpending htype hredirections
  obtain ⟨b₁, root₁, node₁, word₁, hrun₁, h₁, hsimple₁, hcommand₁, houtside₁⟩ :=
    hleft b sub root spine node previous (⟨operator.token, none⟩ :: right ++ rest) hpending
      (by simp [htype])
  obtain ⟨b₂, root₂, hbuild, h₂, houtside₂⟩ := h₁.operator hsimple₁ operator
  rw [hcommand₁] at h₂
  obtain ⟨b₃, root₃, leaf, inner, hrun₃, hheads, hdescends, hchained, hinner, hparse,
    houtside₃⟩ := hright b₂ sub root₂ _ {} operator.token rest h₂ rfl rfl
  refine ⟨b₃, root₃, leaf, inner, ?_, hheads, hdescends, hchained, hinner, hparse,
    (houtside₁.trans houtside₂).trans houtside₃⟩
  rw [List.append_assoc, hrun₁, List.cons_append,
    buildTokens_of_plain (isRedirection_operator operator), buildToken_operator, hbuild,
    Option.bind_some, hrun₃]

namespace Text

variable {level : Level}

theorem stored_flat (t : Text level) (hopens : t.opens = false) :
    t.stored = (fun _ l => .simple l t.lastSimple.words) ∧
      t.ends = ({}, t.lastSimple.node.redirections) := by
  induction t with
  | simple _ => exact ⟨rfl, rfl⟩
  | subshell _ _ _ => cases hopens
  | command _ ih | pipeline _ ih | andOr _ ih | complete _ _ ih => exact ih hopens
  | pipe _ _ _ ih | connect _ _ _ _ ih | sequence _ _ _ _ ih =>
      exact ih (Bool.or_eq_false_iff.mp hopens).2

/-- What the body is stored as, and the redirections that it leaves -/
theorem encloses (body : Text .complete) (hnests : body.Nests)
    (hchains : body.opens = true →
      Chains body.tokens body.last body.spine body.stored body.ends) :
    Encloses body.tokens
      (fun r l => .subshell (if body.opens then {} else r)
        (plug (body.spine []) (body.stored r l)))
      (if body.opens then body.ends.1 else {}, body.ends.2) := by
  cases hopens : body.opens with
  | true =>
      simp only [if_true]
      exact (hchains hopens).encloses
  | false =>
      obtain ⟨hstored, hends⟩ := body.stored_flat hopens
      rw [hstored, hends]
      exact (body.leads hnests hopens).encloses

theorem chains (t : Text level) (hnests : t.Nests) (hopens : t.opens = true) :
    Chains t.tokens t.last t.spine t.stored t.ends := by
  induction t with
  | simple _ => cases hopens
  | subshell body redirections ih => exact (body.encloses hnests (ih hnests)).chains redirections
  | command _ ih | pipeline _ ih | andOr _ ih => exact ih hnests hopens
  | pipe left right _ ih =>
      obtain ⟨hflat, hleft, hright⟩ := hnests
      have hopens' : right.opens = true := by simpa [opens, hflat] using hopens
      exact (left.leads hleft hflat).chains (ih hright hopens') .pipeCommand
  | connect left connective right _ ih =>
      obtain ⟨hflat, hleft, hright⟩ := hnests
      have hopens' : right.opens = true := by simpa [opens, hflat] using hopens
      rw [tokens, connective_token]
      exact (left.leads hleft hflat).chains (ih hright hopens') connective.operator
  | sequence left joint right _ ih =>
      obtain ⟨rfl, hflat, hleft, hright⟩ := hnests
      have hopens' : right.opens = true := by simpa [opens, hflat] using hopens
      exact (left.leads hleft hflat).chains (ih hright hopens') .sequenceCommand
  | complete t semicolon ih =>
      obtain ⟨rfl, hnests⟩ := hnests
      rw [tokens, if_neg (by simp), List.append_nil]
      exact ih hnests hopens

end Text

end Cs111Labs.Shell
