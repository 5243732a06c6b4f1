import Cs111Labs.Shell.Semicolons
import Cs111Labs.Shell.Targets

/-!
# Redirections behind a command of a pipeline

After a `)` the first redirection goes to the subshell that was opened last, and
the second one to the last simple command inside it.  So a subshell gets its
redirections only if no other was opened inside it, and one of them at most.
-/

namespace Cs111Labs.Shell

variable {b b' : Builder} {own : Ptr} {r : Redirections}

/-! ## Pipelines around a command -/

/-- A command without the redirections behind it -/
inductive Bare where
  | simple (s : SimpleText)
  | subshell (body : Text .complete)

namespace Bare

def tokens : Bare → List Token
  | simple s => s.tokens
  | subshell body => ⟨.lbkt, none⟩ :: (body.tokens ++ [⟨.rbkt, none⟩])

def OneLine : Bare → Prop
  | simple _ => True
  | subshell body => body.OneLine

/-- The redirections behind the command go to its node. -/
def Attaches (r : Redirections) : Bare → Prop
  | simple _ => True
  | subshell body => body.opens = false ∧ (r.input = none ∨ r.output = none)

end Bare

def beforeTokens (before : List (Text .command)) : List Token :=
  before.flatMap fun c => c.tokens ++ [Token.mk .pipeline none]

def afterTokens (after : List (Text .command)) : List Token :=
  after.flatMap fun c => Token.mk .pipeline none :: c.tokens

/-- The redirections that a node has behind a suffix -/
def Node.redirect (r : Redirections) (node : Node) : Redirections :=
  ⟨r.input.or node.input, r.output.or node.output⟩

/--
The suffix changes the redirections of the node that the command is read into,
and nothing else in the tree of the pipeline.
-/
def RedirectsOwn (before : List (Text .command)) (x : Bare) (r : Redirections)
    (after : List (Text .command)) : Prop :=
  ∃ b plain redirected,
    buildTokens .null (beforeTokens before) startBuilder = some b ∧
    Returns (beforeTokens before ++ (x.tokens ++ afterTokens after)) plain ∧
    Returns (beforeTokens before ++ (x.tokens ++ (r.tokens ++ afterTokens after)))
      redirected ∧
    redirected.commandRoot = plain.commandRoot ∧
    redirected.heap = Function.update plain.heap b.parseCommand
      ((plain.heap b.parseCommand).withRedirections
        ((plain.heap b.parseCommand).redirect r))

/-! ## The pipeline can be read -/

theorem readable_after (after : List (Text .command)) (opened : Bool)
    (previous : TokenType) :
    readableFrom opened previous (afterTokens after ++ [Token.mk .endCmd none]) = true := by
  induction after generalizing opened previous with
  | nil => rfl
  | cons c after ih =>
      rw [afterTokens, List.flatMap_cons, List.cons_append, List.cons_append,
        readableFrom_of_plain rfl, List.append_assoc, c.readableFrom_tokens]
      exact Bool.and_eq_true_iff.mpr ⟨rfl, ih _ _⟩

theorem readable_before (before : List (Text .command)) {rest : List Token}
    (hrest : ∀ opened previous, readableFrom opened previous rest = true) (opened : Bool)
    (previous : TokenType) :
    readableFrom opened previous (beforeTokens before ++ rest) = true := by
  induction before generalizing opened previous with
  | nil => exact hrest opened previous
  | cons c before ih =>
      rw [beforeTokens, List.flatMap_cons, List.append_assoc, List.append_assoc,
        c.readableFrom_tokens, List.singleton_append, readableFrom_of_plain rfl]
      exact Bool.and_eq_true_iff.mpr ⟨rfl, ih _ _⟩

theorem readable_beforeTokens (before : List (Text .command)) :
    readableFrom false .null (beforeTokens before) = true := by
  have hnil : ∀ opened previous, readableFrom opened previous [] = true := fun _ _ => rfl
  simpa using readable_before before hnil false .null

theorem readable_redirections (r : Redirections) {rest : List Token} {opened : Bool}
    {previous : TokenType} (hprevious : previous ≠ .rbkt ∨ opened = true)
    (hrest : ∀ previous, readableFrom opened previous rest = true) :
    readableFrom opened previous (r.tokens ++ rest) = true := by
  obtain ⟨input, output⟩ := r
  cases input <;> cases output <;>
    simp [Redirections.tokens, readableFrom, TokenType.isRedirection, hprevious, hrest]

theorem readable_bare (x : Bare) (r : Redirections) {rest : List Token}
    (hrest : ∀ opened previous, readableFrom opened previous rest = true) (opened : Bool)
    (previous : TokenType) :
    readableFrom opened previous (x.tokens ++ (r.tokens ++ rest)) = true := by
  cases x with
  | simple s =>
      rw [Bare.tokens, readableFrom_simple]
      exact readable_redirections r (.inl (by simp)) (hrest opened)
  | subshell body =>
      rw [Bare.tokens, List.cons_append, readableFrom_of_plain rfl, List.append_assoc,
        body.readableFrom_tokens, List.singleton_append, readableFrom_of_plain rfl]
      have hopened : (opened || true || body.opens || false) = true := by simp
      refine Bool.and_eq_true_iff.mpr ⟨rfl, Bool.and_eq_true_iff.mpr ⟨rfl, ?_⟩⟩
      exact readable_redirections r (.inr hopened) (hrest _)

/-- What is read in two parts -/
theorem buildTokens_append {opened : Bool} {previous : TokenType} {cells : List Token}
    (hreadable : readableFrom opened previous cells = true) :
    ∃ previous', ∀ (rest : List Token) (b : Builder), buildTokens previous (cells ++ rest) b =
      (buildTokens previous cells b).bind (buildTokens previous' rest) := by
  induction opened, previous, cells using readableFrom.induct with
  | case1 opened previous => exact ⟨previous, fun _ _ => rfl⟩
  | case2 opened previous cell hredirects => simp [readableFrom, hredirects] at hreadable
  | case3 opened previous cell hredirects operand cells ih =>
      simp only [readableFrom, hredirects, if_true, Bool.and_eq_true] at hreadable
      obtain ⟨previous', hrun⟩ := ih hreadable.2
      refine ⟨previous', fun rest b => ?_⟩
      simp only [List.cons_append, buildTokens, hredirects, if_true, hrun]
      cases operand.content with
      | none => rfl
      | some content =>
          simp only [Option.bind_some]
          rw [Option.bind_assoc]
  | case4 opened previous cell cells hplain ih =>
      have hplain' : cell.token.isRedirection = false := by simpa using hplain
      rw [readableFrom_of_plain hplain', Bool.and_eq_true] at hreadable
      obtain ⟨previous', hrun⟩ := ih hreadable.2
      refine ⟨previous', fun rest b => ?_⟩
      simp only [List.cons_append, buildTokens_of_plain hplain', hrun]
      rw [Option.bind_assoc]

theorem buildTokens_plain {cell : Token} {cells : List Token} {b : Builder}
    (hplain : cell.token.isRedirection = false) (previous previous' : TokenType) :
    buildTokens previous (cell :: cells) b = buildTokens previous' (cell :: cells) b := by
  rw [buildTokens_of_plain hplain, buildTokens_of_plain hplain]

/-! ## The node before the command -/

/-- A command goes to a new node. -/
structure Builder.Starts (b : Builder) : Prop where
  built : ∃ t, Built b t
  node : b.heap b.parseCommand = {}

theorem Builder.Starts.lt (h : b.Starts) : b.parseCommand < b.next := by
  obtain ⟨t, ht⟩ := h.built
  exact ht.bound _ ht.parse_mem

theorem buildOperator_node {below : Operator → Bool} {operator : Operator}
    (heq : buildOperator below operator b = some b') : b'.heap b'.parseCommand = {} := by
  obtain ⟨top, -, rfl⟩ := Option.map_eq_some_iff.mp heq
  have hnew : ∀ (c : Builder) (left : Option Ptr), (c.putAbove left operator).heap
      (c.putAbove left operator).parseCommand = {} :=
    fun c left => (putAbove_new c left operator).2
  dsimp only
  split
  · split
    · exact hnew _ _
    · exact hnew _ _
  · exact hnew _ _

theorem exists_before (before : List (Text .command)) :
    ∃ b, buildTokens .null (beforeTokens before) startBuilder = some b ∧ b.Starts := by
  have hbuilt : ∀ cs : List (Text .command), ∃ b t,
      buildTokens .null (beforeTokens cs) startBuilder = some b ∧ Built b t := by
    intro cs
    obtain ⟨hsome, hresult⟩ := Built.tokens true (beforeTokens cs) Built.start rfl .null
    obtain ⟨b, hbuild⟩ := Option.isSome_iff_exists.mp (hsome.trans (readable_beforeTokens cs))
    obtain ⟨t, hbuilt, -⟩ := hresult b hbuild
    exact ⟨b, t, hbuild, hbuilt⟩
  obtain ⟨b, t, hbuild, hb⟩ := hbuilt before
  refine ⟨b, hbuild, ⟨t, hb⟩, ?_⟩
  -- Either nothing was read, or the last cell is a `|`.
  cases before using List.reverseRecOn with
  | nil =>
      obtain rfl := Option.some.inj hbuild
      rfl
  | append_singleton before c _ =>
      have hcells : beforeTokens (before ++ [c]) =
          (beforeTokens before ++ c.tokens) ++ [Token.mk .pipeline none] := by
        simp [beforeTokens]
      have hfirst : readableFrom false .null (beforeTokens before ++ c.tokens) = true := by
        refine readable_before before (fun opened previous => ?_) false .null
        have hlast := c.readableFrom_tokens opened previous []
        rw [List.append_nil] at hlast
        exact hlast.trans rfl
      obtain ⟨previous, hrun⟩ := buildTokens_append hfirst
      rw [hcells, hrun] at hbuild
      obtain ⟨b₁, -, hlast⟩ := Option.bind_eq_some_iff.mp hbuild
      rw [buildTokens_of_plain rfl] at hlast
      obtain ⟨b₂, hpipe, hend⟩ := Option.bind_eq_some_iff.mp hlast
      obtain rfl := Option.some.inj hend
      exact buildOperator_node hpipe

/-! ## What is read behind the command -/

/-- The rest of the pipeline leaves the redirections of the node alone. -/
theorem buildTokens_after (hlt : own < b.next) (after : List (Text .command))
    (previous : TokenType) (r : Redirections) :
    buildTokens previous (afterTokens after ++ [Token.mk .endCmd none])
        (b.withRedirections own r) =
      (buildTokens previous (afterTokens after ++ [Token.mk .endCmd none]) b).map
        (·.withRedirections own r) := by
  cases after with
  | nil =>
      rw [afterTokens, List.flatMap_nil, List.nil_append, buildTokens_of_plain rfl,
        buildTokens_of_plain rfl]
      rfl
  | cons c after =>
      have hreadable := c.readableFrom_tokens false .pipeline
        (afterTokens after ++ [Token.mk .endCmd none])
      rw [readable_after] at hreadable
      have hcells : afterTokens (c :: after) ++ [Token.mk .endCmd none] =
          Token.mk .pipeline none :: (c.tokens ++ (afterTokens after ++ [Token.mk .endCmd none])) := by
        simp [afterTokens]
      rw [hcells, buildTokens_of_plain rfl, buildTokens_of_plain rfl,
        buildToken_withRedirections hlt fun _ => ⟨by simp, by simp⟩]
      cases hbuild : buildToken (Token.mk .pipeline none) b with
      | none => rfl
      | some b₁ =>
          obtain ⟨hnext, hparse⟩ := buildOperator_next hbuild
          have hapart : Apart own b₁ := by
            refine ⟨?_, ?_⟩
            · rw [hnext]
              exact Nat.lt_add_right 2 hlt
            · rw [hparse]
              exact (Nat.lt_succ_of_lt hlt).ne
          exact buildTokens_withRedirections hapart (by simp) hreadable

theorem redirections_after (hlt : own < b.next) {after : List (Text .command)}
    {previous : TokenType}
    (heq : buildTokens previous (afterTokens after ++ [Token.mk .endCmd none]) b = some b') :
    (b'.heap own).redirections = (b.heap own).redirections :=
  redirections_eq_of_commutes (buildTokens_after hlt after previous _) heq

/-! ## The command itself -/

/-- Reading the suffix sets the redirections of the node `own`. -/
def Suffixes (b : Builder) (cells : List Token) (own : Ptr) (p : Redirections → Prop) : Prop :=
  ∃ b₁ : Builder, own < b₁.next ∧ ∀ (r : Redirections) (rest : List Token)
    (previous : TokenType), p r → ∃ previous',
      buildTokens previous (cells ++ (r.tokens ++ rest)) b =
        buildTokens previous' rest
          (b₁.withRedirections own ((b₁.heap own).redirect r))

/-- Behind a word both redirections go to `parse_command`. -/
theorem buildTokens_redirect (b : Builder) (r : Redirections) (rest : List Token) :
    buildTokens .word (r.tokens ++ rest) b = buildTokens .word rest
      (b.withRedirections b.parseCommand ((b.heap b.parseCommand).redirect r)) := by
  obtain ⟨input, output⟩ := r
  have hself := withRedirections_self b b.parseCommand
  cases input <;> cases output
  · exact congrArg (buildTokens .word rest) hself.symm
  all_goals
    simp [Redirections.tokens, buildTokens, TokenType.isRedirection, buildRedirection,
      setRedirection, Builder.withRedirections, Node.withRedirections, Node.redirect,
      Builder.write]

theorem suffixes_simple (h : b.Starts) (s : SimpleText) :
    Suffixes b s.tokens b.parseCommand fun _ => True := by
  refine ⟨b.write b.parseCommand s.node, h.lt, fun r rest previous _ => ⟨.word, ?_⟩⟩
  rw [buildTokens_simple s previous _ (by simp [h.node]), buildTokens_redirect]
  rfl

theorem Text.no_lbkt {level : Level} (t : Text level) (hopens : t.opens = false) :
    ∀ cell ∈ t.tokens, cell.token ≠ .lbkt := by
  have hpart : ∀ part : Part, ∀ cell ∈ part.tokens, cell.token ≠ .lbkt := by
    intro part
    cases part <;> simp [Part.tokens]
  induction t with
  | simple s =>
      refine List.forall_mem_cons.mpr ⟨by simp, fun cell hcell => ?_⟩
      obtain ⟨part, -, hmem⟩ := List.mem_flatMap.mp hcell
      exact hpart part cell hmem
  | subshell _ _ _ => cases hopens
  | command _ ih | pipeline _ ih | andOr _ ih => exact ih hopens
  | pipe _ _ hleft hright =>
      obtain ⟨hopens₁, hopens₂⟩ := Bool.or_eq_false_iff.mp hopens
      exact List.forall_mem_append.mpr
        ⟨hleft hopens₁, List.forall_mem_cons.mpr ⟨by simp, hright hopens₂⟩⟩
  | connect _ connective _ hleft hright =>
      obtain ⟨hopens₁, hopens₂⟩ := Bool.or_eq_false_iff.mp hopens
      refine List.forall_mem_append.mpr
        ⟨hleft hopens₁, List.forall_mem_cons.mpr ⟨?_, hright hopens₂⟩⟩
      cases connective <;> simp [Connective.token]
  | sequence _ joint _ hleft hright =>
      obtain ⟨hopens₁, hopens₂⟩ := Bool.or_eq_false_iff.mp hopens
      refine List.forall_mem_append.mpr
        ⟨hleft hopens₁, List.forall_mem_cons.mpr ⟨?_, hright hopens₂⟩⟩
      cases joint <;> simp [Joint.token]
  | complete _ semicolon ih =>
      refine List.forall_mem_append.mpr ⟨ih hopens, ?_⟩
      cases semicolon <;> simp

theorem readable_text {level : Level} (t : Text level) (opened : Bool)
    (previous : TokenType) : readableFrom opened previous t.tokens = true := by
  have hreadable := t.readableFrom_tokens opened previous []
  rw [List.append_nil] at hreadable
  exact hreadable.trans rfl

theorem buildLbkt_apart (h : b.Starts) : Apart b.parseCommand (buildLbkt b) ∧
    ((buildLbkt b).heap b.parseCommand).redirections = {} := by
  refine ⟨⟨Nat.lt_succ_of_lt h.lt, h.lt.ne⟩, ?_⟩
  have hne := h.lt.ne
  simp [buildLbkt, Builder.write, hne, h.node, Node.redirections]

/-- Inside the parentheses no other subshell is opened. -/
theorem exists_body (h : b.Starts) {body : Text .complete} (hopens : body.opens = false) :
    ∃ b₁, Apart b.parseCommand b₁ ∧ b₁.subshellRoot = some b.parseCommand ∧
      (b₁.heap b.parseCommand).redirections = {} ∧
      ∀ (rest : List Token) (previous : TokenType),
        buildTokens previous
            (Token.mk .lbkt none :: (body.tokens ++ Token.mk .rbkt none :: rest)) b =
          buildTokens .rbkt rest b₁ := by
  obtain ⟨t, ht⟩ := h.built
  obtain ⟨t', ht', -, hpending⟩ := ht.lbkt
  obtain ⟨hapart, hredirections⟩ := buildLbkt_apart h
  obtain ⟨hsome, -⟩ := Built.tokens true body.tokens ht' hpending .lbkt
  rw [readable_text] at hsome
  obtain ⟨b₂, hbody⟩ := Option.isSome_iff_exists.mp hsome
  obtain ⟨hapart₂, hroot⟩ := buildTokens_apart hapart hbody
  have hsame := buildTokens_redirections hapart (by simp) (readable_text body false .lbkt)
    hbody
  obtain ⟨previous', hrun⟩ := buildTokens_append (readable_text body false .lbkt)
  refine ⟨{ b₂ with isSubshell := false }, ⟨hapart₂.lt, hapart₂.parse⟩,
    hroot (body.no_lbkt hopens), hsame.trans hredirections, fun rest previous => ?_⟩
  rw [buildTokens_of_plain rfl]
  have hlbkt : buildToken (Token.mk .lbkt none) b = some (buildLbkt b) := rfl
  rw [hlbkt, Option.bind_some, hrun, hbody, Option.bind_some, buildTokens_of_plain rfl]
  rfl

/-- The first redirection goes to the subshell. -/
theorem suffixes_subshell (h : b.Starts) {body : Text .complete}
    (hopens : body.opens = false) :
    Suffixes b (Bare.subshell body).tokens b.parseCommand
      fun r => r.input = none ∨ r.output = none := by
  obtain ⟨b₁, hapart, hroot, hredirections, hrun⟩ := exists_body h hopens
  refine ⟨b₁, hapart.lt, fun r rest previous hr => ?_⟩
  have hcells : (Bare.subshell body).tokens ++ (r.tokens ++ rest) =
      Token.mk .lbkt none :: (body.tokens ++ Token.mk .rbkt none :: (r.tokens ++ rest)) := by
    simp [Bare.tokens]
  rw [hcells, hrun]
  obtain ⟨input, output⟩ := r
  have hself := withRedirections_self b₁ b.parseCommand
  cases input <;> cases output
  · exact ⟨.rbkt, congrArg (buildTokens .rbkt rest) hself.symm⟩
  case some.some => simp at hr
  all_goals
    refine ⟨.word, ?_⟩
    simp [Redirections.tokens, buildTokens, TokenType.isRedirection, buildRedirection, hroot,
      setRedirection, Builder.withRedirections, Node.withRedirections, Node.redirect,
      Builder.write]

/-! ## The pipeline -/

section Pipeline

variable {before after : List (Text .command)} {x : Bare}

theorem written_redirects (r : Redirections) :
    Written (beforeTokens before ++ (x.tokens ++ (r.tokens ++ afterTokens after))) := by
  refine List.forall_mem_append.mpr ⟨fun cell hcell => ?_,
    List.forall_mem_append.mpr ⟨?_, List.forall_mem_append.mpr
      ⟨fun cell hcell => (running_redirections r cell hcell).2, fun cell hcell => ?_⟩⟩⟩
  · obtain ⟨c, -, hmem⟩ := List.mem_flatMap.mp hcell
    rcases List.mem_append.mp hmem with hold | hpipe
    · exact c.written cell hold
    · obtain rfl := List.mem_singleton.mp hpipe
      simp
  · cases x with
    | simple s => exact fun cell hcell => (running_simple s cell hcell).2
    | subshell body =>
        exact List.forall_mem_cons.mpr ⟨by simp,
          List.forall_mem_append.mpr ⟨body.written, by simp⟩⟩
  · obtain ⟨c, -, hmem⟩ := List.mem_flatMap.mp hcell
    rcases List.mem_cons.mp hmem with rfl | hold
    · simp
    · exact c.written cell hold

theorem Bare.oneLine_iff (x : Bare) :
    x.OneLine ↔ ∀ cell ∈ x.tokens, cell.token ≠ .endCmd := by
  cases x with
  | simple s => exact iff_of_true trivial fun cell hcell => (running_simple s cell hcell).1
  | subshell body =>
      simp only [OneLine, Text.oneLine_iff, tokens, List.forall_mem_cons,
        List.forall_mem_append]
      simp

theorem noEnd_iff (r : Redirections) :
    (∀ cell ∈ beforeTokens before ++ (x.tokens ++ (r.tokens ++ afterTokens after)),
        cell.token ≠ .endCmd) ↔
      (∀ c ∈ before, c.OneLine) ∧ x.OneLine ∧ ∀ c ∈ after, c.OneLine := by
  have hbefore : (∀ cell ∈ beforeTokens before, cell.token ≠ .endCmd) ↔
      ∀ c ∈ before, c.OneLine := by
    simp only [beforeTokens, List.forall_mem_flatMap, List.forall_mem_append,
      Text.oneLine_iff]
    simp
  have hafter : (∀ cell ∈ afterTokens after, cell.token ≠ .endCmd) ↔
      ∀ c ∈ after, c.OneLine := by
    simp only [afterTokens, List.forall_mem_flatMap, List.forall_mem_cons,
      Text.oneLine_iff]
    simp
  have hr : ∀ cell ∈ r.tokens, cell.token ≠ .endCmd :=
    fun cell hcell => (running_redirections r cell hcell).1
  rw [List.forall_mem_append, List.forall_mem_append, List.forall_mem_append, hbefore,
    hafter, ← x.oneLine_iff]
  exact ⟨fun h => ⟨h.1, h.2.1, h.2.2.2⟩, fun h => ⟨h.1, h.2.1, hr, h.2.2⟩⟩

theorem redirects_ne_nil (r : Redirections) :
    beforeTokens before ++ (x.tokens ++ (r.tokens ++ afterTokens after)) ≠ [] := by
  have hx : x.tokens ≠ [] := by
    cases x with
    | simple s => simp [Bare.tokens, SimpleText.tokens]
    | subshell body => simp [Bare.tokens]
  simp [hx]

/-- The whole pipeline is read from the builder before the command on. -/
theorem buildTokens_before
    (hbefore : buildTokens .null (beforeTokens before) startBuilder = some b) :
    ∃ previous, ∀ rest, buildTokens .null (beforeTokens before ++ rest) startBuilder =
      buildTokens previous rest b := by
  obtain ⟨previous, hrun⟩ := buildTokens_append (readable_beforeTokens before)
  refine ⟨previous, fun rest => ?_⟩
  rw [hrun, hbefore, Option.bind_some]

theorem buildTokens_isSome_redirects (before : List (Text .command)) (x : Bare)
    (r : Redirections) (after : List (Text .command)) :
    ∃ b, buildTokens .null (beforeTokens before ++ (x.tokens ++ (r.tokens ++
      (afterTokens after ++ [Token.mk .endCmd none])))) startBuilder = some b := by
  rw [← Option.isSome_iff_exists, (Built.tokens true _ Built.start rfl .null).1]
  exact readable_before before
    (fun opened previous => readable_bare x r (readable_after after) opened previous) _ _

/-- What stands behind the command starts with a `|` or ends it. -/
theorem afterTokens_previous (b : Builder) (previous previous' : TokenType) :
    buildTokens previous (afterTokens after ++ [Token.mk .endCmd none]) b =
      buildTokens previous' (afterTokens after ++ [Token.mk .endCmd none]) b := by
  cases after with
  | nil => exact buildTokens_plain rfl previous previous'
  | cons c after => exact buildTokens_plain rfl previous previous'

theorem returns_redirects_iff {r : Redirections} {parsed : Parsed}
    (honeLine : (∀ c ∈ before, c.OneLine) ∧ x.OneLine ∧ ∀ c ∈ after, c.OneLine) :
    Returns (beforeTokens before ++ (x.tokens ++ (r.tokens ++ afterTokens after))) parsed ↔
      ∃ b, buildTokens .null (beforeTokens before ++ (x.tokens ++ (r.tokens ++
          (afterTokens after ++ [Token.mk .endCmd none])))) startBuilder = some b ∧
        parsed = ⟨b.heap, b.commandRoot⟩ := by
  rw [returns_iff_of_running (redirects_ne_nil r) (written_redirects r)
    ((noEnd_iff r).mpr honeLine)]
  simp only [List.append_assoc]

theorem redirectsOwn_of_suffixes {p : Redirections → Prop}
    (honeLine : (∀ c ∈ before, c.OneLine) ∧ x.OneLine ∧ ∀ c ∈ after, c.OneLine)
    (hbefore : buildTokens .null (beforeTokens before) startBuilder = some b)
    (hsuffixes : Suffixes b x.tokens b.parseCommand p) (hempty : p {}) (hr : p r) :
    RedirectsOwn before x r after := by
  obtain ⟨b₁, hlt, hrun⟩ := hsuffixes
  obtain ⟨previous, hwhole⟩ := buildTokens_before hbefore
  set own := b.parseCommand with hown
  set rest := afterTokens after ++ [Token.mk .endCmd none] with hrest
  obtain ⟨previous₁, hplain⟩ := hrun {} rest previous hempty
  obtain ⟨previous₂, hsuffix⟩ := hrun r rest previous hr
  have hself : (b₁.withRedirections own ((b₁.heap own).redirect {})) = b₁ :=
    withRedirections_self b₁ own
  rw [hself] at hplain
  rw [buildTokens_after hlt after, afterTokens_previous b₁ previous₂ previous₁] at hsuffix
  obtain ⟨b', hb'⟩ := buildTokens_isSome_redirects before x {} after
  have hend : buildTokens previous₁ rest b₁ = some b' := by
    rw [← hplain, ← hb', hwhole]
  have hsame := redirections_after hlt hend
  have hredirect : (b'.heap own).redirect r = (b₁.heap own).redirect r := by
    obtain ⟨hinput, houtput⟩ := Redirections.mk.inj hsame
    rw [Node.redirect, Node.redirect, hinput, houtput]
  refine ⟨b, ⟨b'.heap, b'.commandRoot⟩,
    ⟨(b'.withRedirections own ((b₁.heap own).redirect r)).heap, b'.commandRoot⟩, hbefore,
    ?_, ?_, rfl, ?_⟩
  · exact (returns_redirects_iff (r := {}) honeLine).mpr ⟨b', hb', rfl⟩
  · refine (returns_redirects_iff honeLine).mpr
      ⟨b'.withRedirections own ((b₁.heap own).redirect r), ?_, rfl⟩
    rw [hwhole, hsuffix, hend]
    rfl
  · rw [hredirect]
    rfl

/-- The node of a subshell never gets a second redirection. -/
theorem not_both (hstarts : b.Starts) {body : Text .complete} (hopens : body.opens = false)
    {input output : CString} {previous : TokenType}
    (heq : buildTokens previous ((Bare.subshell body).tokens ++
      ((Redirections.mk (some input) (some output)).tokens ++
        (afterTokens after ++ [Token.mk .endCmd none]))) b = some b') :
    (b'.heap b.parseCommand).output = none := by
  obtain ⟨b₁, hapart, hroot, hredirections, hrun⟩ := exists_body hstarts hopens
  set rest := afterTokens after ++ [Token.mk .endCmd none] with hrest
  have hcells : (Bare.subshell body).tokens ++
      ((Redirections.mk (some input) (some output)).tokens ++ rest) =
      Token.mk .lbkt none :: (body.tokens ++ Token.mk .rbkt none ::
        (Token.mk .input none :: Token.mk .word (some input) ::
          Token.mk .output none :: Token.mk .word (some output) :: rest)) := by
    simp [Bare.tokens, Redirections.tokens]
  rw [hcells, hrun] at heq
  set b₂ := b₁.write b.parseCommand
    { b₁.heap b.parseCommand with input := some input } with hb₂
  have hinput : buildTokens .rbkt (Token.mk .input none :: Token.mk .word (some input) ::
      Token.mk .output none :: Token.mk .word (some output) :: rest) b₁ =
      buildTokens .word (Token.mk .output none :: Token.mk .word (some output) :: rest) b₂ := by
    simp [buildTokens, TokenType.isRedirection, buildRedirection, setRedirection, hroot, hb₂]
  rw [hinput] at heq
  have hreadable : readableFrom false .word
      (Token.mk .output none :: Token.mk .word (some output) :: rest) = true := by
    simpa [readableFrom, TokenType.isRedirection] using readable_after after false .word
  have hapart₂ : Apart b.parseCommand b₂ := ⟨hapart.lt, hapart.parse⟩
  have hsame := buildTokens_redirections hapart₂ (by simp) hreadable heq
  have hnone : (b₁.heap b.parseCommand).output = none :=
    congrArg Redirections.output hredirections
  have houtput : (b'.heap b.parseCommand).output = (b₂.heap b.parseCommand).output :=
    congrArg Redirections.output hsame
  rw [houtput]
  simpa [hb₂, Builder.write] using hnone

/-- A subshell with another one inside gets no redirection at all. -/
theorem not_any (hstarts : b.Starts) {body : Text .complete} (hopens : body.opens = true)
    {r : Redirections} {previous : TokenType}
    (heq : buildTokens previous ((Bare.subshell body).tokens ++
      (r.tokens ++ (afterTokens after ++ [Token.mk .endCmd none]))) b = some b') :
    (b'.heap b.parseCommand).redirections = {} := by
  obtain ⟨hapart, hredirections⟩ := buildLbkt_apart hstarts
  set rest := afterTokens after ++ [Token.mk .endCmd none] with hrest
  have hcells : (Bare.subshell body).tokens ++ (r.tokens ++ rest) =
      Token.mk .lbkt none :: (body.tokens ++ Token.mk .rbkt none :: (r.tokens ++ rest)) := by
    simp [Bare.tokens]
  rw [hcells, buildTokens_of_plain rfl] at heq
  have hreadable : readableFrom false .lbkt
      (body.tokens ++ Token.mk .rbkt none :: (r.tokens ++ rest)) = true := by
    rw [body.readableFrom_tokens, readableFrom_of_plain rfl, hopens]
    exact Bool.and_eq_true_iff.mpr ⟨rfl, readable_redirections r (.inr rfl)
      (readable_after after _)⟩
  exact (buildTokens_redirections hapart (by simp) hreadable heq).trans hredirections

theorem RedirectsOwn.attaches {r : Redirections} (hr : r ≠ {})
    (honeLine : (∀ c ∈ before, c.OneLine) ∧ x.OneLine ∧ ∀ c ∈ after, c.OneLine)
    (h : RedirectsOwn before x r after) : x.Attaches r := by
  obtain ⟨b, plain, redirected, hbefore, -, hreturns, -, hheap⟩ := h
  obtain ⟨b', hbuild, rfl⟩ := (returns_redirects_iff honeLine).mp hreturns
  obtain ⟨b₀, hbefore₀, hstarts⟩ := exists_before before
  obtain rfl := Option.some.inj (hbefore₀.symm.trans hbefore)
  obtain ⟨previous, hwhole⟩ := buildTokens_before hbefore
  rw [hwhole] at hbuild
  have hown : (b'.heap b₀.parseCommand).redirections =
      (plain.heap b₀.parseCommand).redirect r := by
    have hnode := congrFun hheap b₀.parseCommand
    rw [Function.update_self] at hnode
    exact congrArg Node.redirections hnode
  cases x with
  | simple s => trivial
  | subshell body =>
      obtain ⟨input, output⟩ := r
      cases hopens : body.opens with
      | true =>
          rw [not_any hstarts hopens hbuild] at hown
          obtain ⟨hinput, houtput⟩ := Redirections.mk.inj hown
          cases input <;> cases output <;> simp at hr hinput houtput
      | false =>
          refine ⟨hopens, ?_⟩
          cases input with
          | none => exact .inl rfl
          | some input =>
              cases output with
              | none => exact .inr rfl
              | some output =>
                  have hnone := not_both hstarts hopens hbuild
                  have hsome := congrArg Redirections.output hown
                  rw [Node.redirections, hnone] at hsome
                  simp [Node.redirect] at hsome

end Pipeline

/-- A suffix of one or two redirections at any position of a pipeline. -/
theorem redirectsOwn_iff (before : List (Text .command)) (x : Bare) (r : Redirections)
    (after : List (Text .command)) (hr : r ≠ {}) :
    RedirectsOwn before x r after ↔
      ((∀ c ∈ before, c.OneLine) ∧ x.OneLine ∧ ∀ c ∈ after, c.OneLine) ∧ x.Attaches r := by
  constructor
  · intro h
    have honeLine : (∀ c ∈ before, c.OneLine) ∧ x.OneLine ∧ ∀ c ∈ after, c.OneLine := by
      obtain ⟨b, plain, redirected, -, -, hreturns, -, -⟩ := h
      exact (noEnd_iff r).mp (hreturns.running (written_redirects r))
    exact ⟨honeLine, h.attaches hr honeLine⟩
  · rintro ⟨honeLine, hattaches⟩
    obtain ⟨b, hbefore, hstarts⟩ := exists_before before
    cases x with
    | simple s =>
        exact redirectsOwn_of_suffixes honeLine hbefore (suffixes_simple hstarts s) trivial
          trivial
    | subshell body =>
        exact redirectsOwn_of_suffixes honeLine hbefore
          (suffixes_subshell hstarts hattaches.1) (.inl rfl) hattaches.2

/-- `(a)<f` -/
theorem redirectsOwn_iff_subshell :
    RedirectsOwn [] (.subshell (.complete (.andOr (letter 97)) false)) ⟨some [102], none⟩ [] ↔
      ((∀ c ∈ ([] : List (Text .command)), c.OneLine) ∧
          (Bare.subshell (.complete (.andOr (letter 97)) false)).OneLine ∧
          ∀ c ∈ ([] : List (Text .command)), c.OneLine) ∧
        (Bare.subshell (.complete (.andOr (letter 97)) false)).Attaches ⟨some [102], none⟩ :=
  redirectsOwn_iff [] (.subshell (.complete (.andOr (letter 97)) false)) ⟨some [102], none⟩ []
    (by simp)

theorem oneLine_letter :
    (Bare.subshell (.complete (.andOr (letter 97)) false)).OneLine := by
  simp [Bare.OneLine, Text.OneLine, letter]

/-- `(a)<f>g` -/
theorem bothBehindSubshell_not_redirectsOwn :
    ¬ ∀ (before : List (Text .command)) (x : Bare) (r : Redirections)
      (after : List (Text .command)), r ≠ {} → RedirectsOwn before x r after := by
  intro hall
  have hr : (⟨some [102], some [103]⟩ : Redirections) ≠ {} := by simp
  have hattaches := (hall [] (.subshell (.complete (.andOr (letter 97)) false))
    ⟨some [102], some [103]⟩ [] hr).attaches hr ⟨by simp, oneLine_letter, by simp⟩
  rcases hattaches.2 with hinput | houtput
  · cases hinput
  · cases houtput

end Cs111Labs.Shell
