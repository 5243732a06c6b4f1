import Cs111Labs.Shell.Spines

/-!
# The command that a redirection goes to

A redirection is written to `parse_command`, or to the subshell that was opened
last if the token before it is `)`.  What is read later leaves the redirections
of a node alone unless one of the two points to it.
-/

namespace Cs111Labs.Shell

variable {b b' : Builder} {own : Ptr} {r : Redirections} {cell : Token}

/-! ## Other redirections for one node -/

def Node.withRedirections (r : Redirections) (node : Node) : Node :=
  { node with input := r.input, output := r.output }

def Builder.withRedirections (own : Ptr) (r : Redirections) (b : Builder) : Builder :=
  b.write own ((b.heap own).withRedirections r)

theorem withRedirections_heap (b : Builder) (own : Ptr) (r : Redirections) (a : Ptr) :
    (b.withRedirections own r).heap a =
      if a = own then (b.heap a).withRedirections r else b.heap a := by
  by_cases ha : a = own
  · subst ha
    simp [Builder.withRedirections, Builder.write]
  · simp [Builder.withRedirections, Builder.write, ha]

theorem withRedirections_type (b : Builder) (own : Ptr) (r : Redirections) (a : Ptr) :
    ((b.withRedirections own r).heap a).type = (b.heap a).type ∧
      ((b.withRedirections own r).heap a).u = (b.heap a).u := by
  rw [withRedirections_heap]
  split
  · exact ⟨rfl, rfl⟩
  · exact ⟨rfl, rfl⟩

theorem withRedirections_self (b : Builder) (own : Ptr) :
    b.withRedirections own (b.heap own).redirections = b := by
  have hnode : (b.heap own).withRedirections (b.heap own).redirections = b.heap own := rfl
  simp [Builder.withRedirections, Builder.write, hnode]

/-- A write that has the new redirections if it is a write to `own`. -/
theorem withRedirections_write {a : Ptr} (node : Node) {node' : Node}
    (h : node' = if a = own then node.withRedirections r else node) :
    (b.withRedirections own r).write a node' = (b.write a node).withRedirections own r := by
  subst h
  by_cases ha : a = own
  · subst ha
    simp [Builder.withRedirections, Builder.write]
  · have hother : (b.write a node).heap own = b.heap own := by
      simp [Builder.write, Ne.symm ha]
    rw [if_neg ha, Builder.withRedirections, Builder.withRedirections, hother]
    simp [Builder.write, Function.update_comm ha]

theorem withRedirections_write_ne (b : Builder) (r : Redirections) {a : Ptr} (hne : a ≠ own)
    (node : Node) :
    (b.withRedirections own r).write a node = (b.write a node).withRedirections own r :=
  withRedirections_write node (by rw [if_neg hne])

/-- A step that changed redirections pass through does not change them itself. -/
theorem redirections_eq_of_commutes {f : Builder → Option Builder}
    (hsame : f (b.withRedirections own (b.heap own).redirections) =
      (f b).map (·.withRedirections own (b.heap own).redirections))
    (heq : f b = some b') : (b'.heap own).redirections = (b.heap own).redirections := by
  rw [withRedirections_self, heq, Option.map_some] at hsame
  have hnode := congrArg (fun c : Builder => (c.heap own).redirections)
    (Option.some.inj hsame)
  rw [hnode, withRedirections_heap, if_pos rfl]
  rfl

theorem withRedirections_next (b : Builder) (own : Ptr) (r : Redirections) :
    (b.withRedirections own r).next = b.next ∧
      (b.withRedirections own r).parseCommand = b.parseCommand ∧
      (b.withRedirections own r).isSubshell = b.isSubshell ∧
      (b.withRedirections own r).subshellRoot = b.subshellRoot ∧
      (b.withRedirections own r).commandRoot = b.commandRoot :=
  ⟨rfl, rfl, rfl, rfl, rfl⟩

theorem withRedirections_top (b : Builder) (own : Ptr) (r : Redirections) :
    (b.withRedirections own r).top = b.top := by
  unfold Builder.top
  have hbody : (fun ptr => ((b.withRedirections own r).heap ptr).u.body) =
      fun ptr => (b.heap ptr).u.body := by
    funext ptr
    rw [(withRedirections_type b own r ptr).2]
  rw [hbody]
  rfl

/-! ## The steps of the builder -/

theorem buildWord_withRedirections (hparse : own ≠ b.parseCommand) (content : CString) :
    buildWord content (b.withRedirections own r) =
      (buildWord content b).withRedirections own r := by
  have hnode : (b.withRedirections own r).heap b.parseCommand = b.heap b.parseCommand := by
    rw [withRedirections_heap, if_neg hparse.symm]
  unfold buildWord
  rw [(withRedirections_next b own r).2.1, hnode]
  dsimp only
  split
  · exact withRedirections_write_ne b r hparse.symm _
  · exact withRedirections_write_ne b r hparse.symm _

theorem putAbove_withRedirections (hlt : own < b.next) (left : Option Ptr)
    (operator : Operator) :
    (b.withRedirections own r).putAbove left operator =
      (b.putAbove left operator).withRedirections own r := by
  have hne : b.next ≠ own := hlt.ne'
  have hne' : b.next + 1 ≠ own := (Nat.lt_succ_of_lt hlt).ne'
  have hnew := withRedirections_write_ne b r hne
    { type := some (.operator operator), u := .command left (some (b.next + 1)) }
  have hright := withRedirections_write_ne (b.write b.next
    { type := some (.operator operator), u := .command left (some (b.next + 1)) }) r hne' {}
  unfold Builder.putAbove
  rw [(withRedirections_next b own r).1]
  dsimp only
  rw [hnew, hright]
  rfl

theorem setTop_withRedirections (b : Builder) (own : Ptr) (r : Redirections) (ptr : Ptr) :
    (b.withRedirections own r).setTop ptr = (b.setTop ptr).withRedirections own r := by
  unfold Builder.setTop
  rw [(withRedirections_next b own r).2.2.1, (withRedirections_next b own r).2.2.2.1]
  split
  · split
    · rfl
    · apply withRedirections_write { b.heap _ with u := .subshellCommand (some ptr) }
      rw [withRedirections_heap]
      split <;> rfl
  · rfl

theorem setTop_next (b : Builder) (ptr : Ptr) :
    (b.setTop ptr).next = b.next ∧ (b.setTop ptr).subshellRoot = b.subshellRoot := by
  unfold Builder.setTop
  split
  · split <;> exact ⟨rfl, rfl⟩
  · exact ⟨rfl, rfl⟩

theorem buildOperator_withRedirections (hlt : own < b.next) (below : Operator → Bool)
    (operator : Operator) :
    buildOperator below operator (b.withRedirections own r) =
      (buildOperator below operator b).map (·.withRedirections own r) := by
  have habove : ∀ top, ((b.withRedirections own r).setTop b.next).putAbove (some top) operator =
      ((b.setTop b.next).putAbove (some top) operator).withRedirections own r := by
    intro top
    rw [setTop_withRedirections, putAbove_withRedirections]
    rw [(setTop_next b b.next).1]
    exact hlt
  have hbelow : ∀ top, ((b.withRedirections own r).write top
        { (b.withRedirections own r).heap top with
          u := (b.heap top).u.setSecond (some b.next) }).putAbove (b.heap top).u.second
            operator =
      ((b.write top { b.heap top with
        u := (b.heap top).u.setSecond (some b.next) }).putAbove (b.heap top).u.second
          operator).withRedirections own r := by
    intro top
    rw [withRedirections_write { b.heap top with
      u := (b.heap top).u.setSecond (some b.next) }]
    · exact putAbove_withRedirections (b := b.write top { b.heap top with
        u := (b.heap top).u.setSecond (some b.next) }) hlt _ _
    · rw [withRedirections_heap]
      split <;> rfl
  rw [buildOperator, buildOperator, withRedirections_top, Option.map_map]
  cases b.top with
  | none => rfl
  | some top =>
      obtain ⟨htype, hu⟩ := withRedirections_type b own r top
      simp only [Option.map_some, Function.comp, htype, hu,
        (withRedirections_next b own r).1]
      congr 1
      split
      · split
        · simpa only [htype] using hbelow top
        · exact habove top
      · exact habove top

theorem buildLbkt_withRedirections (hlt : own < b.next) (hparse : own ≠ b.parseCommand) :
    buildLbkt (b.withRedirections own r) = (buildLbkt b).withRedirections own r := by
  have hnode : (b.withRedirections own r).heap b.parseCommand = b.heap b.parseCommand := by
    rw [withRedirections_heap, if_neg hparse.symm]
  have hfirst := withRedirections_write_ne b r hparse.symm { b.heap b.parseCommand with
    type := some .subshellCommand, u := .subshellCommand (some b.next) }
  have hbody := withRedirections_write_ne (b.write b.parseCommand
    { b.heap b.parseCommand with
      type := some .subshellCommand, u := .subshellCommand (some b.next) }) r hlt.ne'
    { u := .subshellCommand none }
  unfold buildLbkt
  rw [(withRedirections_next b own r).1, (withRedirections_next b own r).2.1, hnode]
  dsimp only
  rw [hfirst, hbody]
  rfl

theorem buildToken_withRedirections (hlt : own < b.next)
    (hparse : own = b.parseCommand → cell.token ≠ .word ∧ cell.token ≠ .lbkt) :
    buildToken cell (b.withRedirections own r) =
      (buildToken cell b).map (·.withRedirections own r) := by
  cases htoken : cell.token with
  | word =>
      have hne : own ≠ b.parseCommand := fun heq => (hparse heq).1 htoken
      simp only [buildToken, htoken]
      cases cell.content with
      | none => rfl
      | some content =>
          exact congrArg some (buildWord_withRedirections hne content)
  | lbkt =>
      have hne : own ≠ b.parseCommand := fun heq => (hparse heq).2 htoken
      simp only [buildToken, htoken]
      exact congrArg some (buildLbkt_withRedirections hlt hne)
  | pipeline | and | or | semicolon =>
      simp only [buildToken, htoken]
      exact buildOperator_withRedirections hlt _ _
  | rbkt | input | output | null | halfAnd | endCmd | halfEndCmd =>
      simp only [buildToken, htoken]
      rfl

theorem buildRedirection_withRedirections {previous token : TokenType} {content : CString}
    (hparse : own ≠ b.parseCommand)
    (hsubshell : previous = .rbkt → b.subshellRoot ≠ some own) :
    buildRedirection previous token content (b.withRedirections own r) =
      (buildRedirection previous token content b).map (·.withRedirections own r) := by
  have hwrite : ∀ ptr, ptr ≠ own →
      (b.withRedirections own r).write ptr
          (setRedirection token content ((b.withRedirections own r).heap ptr)) =
        (b.write ptr (setRedirection token content (b.heap ptr))).withRedirections own r := by
    intro ptr hptr
    rw [withRedirections_heap, if_neg hptr]
    exact withRedirections_write_ne b r hptr _
  unfold buildRedirection
  rw [(withRedirections_next b own r).2.1, (withRedirections_next b own r).2.2.2.1]
  dsimp only
  rw [Option.map_map]
  split
  · rename_i hrbkt
    cases hroot : b.subshellRoot with
    | none => rfl
    | some ptr =>
        have hptr : ptr ≠ own := fun heq => hsubshell hrbkt (by rw [hroot, heq])
        exact congrArg some (hwrite ptr hptr)
  · exact congrArg some (hwrite b.parseCommand hparse.symm)

/-! ## The cells behind a node -/

theorem buildOperator_next {below : Operator → Bool} {operator : Operator}
    (heq : buildOperator below operator b = some b') :
    b'.next = b.next + 2 ∧ b'.parseCommand = b.next + 1 := by
  obtain ⟨top, -, rfl⟩ := Option.map_eq_some_iff.mp heq
  have hset := (setTop_next b b.next).1
  have habove : ((b.setTop b.next).putAbove (some top) operator).next = b.next + 2 ∧
      ((b.setTop b.next).putAbove (some top) operator).parseCommand = b.next + 1 :=
    ⟨congrArg (· + 2) hset, congrArg (· + 1) hset⟩
  dsimp only
  split
  · split
    · exact ⟨rfl, rfl⟩
    · exact habove
  · exact habove

/-- The node is one that was read before. -/
structure Apart (own : Ptr) (b : Builder) : Prop where
  lt : own < b.next
  parse : own ≠ b.parseCommand

theorem buildToken_apart (h : Apart own b) (heq : buildToken cell b = some b') :
    Apart own b' ∧ b'.subshellRoot =
      if cell.token = .lbkt then some b.parseCommand else b.subshellRoot := by
  have hoperator : ∀ below operator, buildOperator below operator b = some b' →
      Apart own b' ∧ b'.subshellRoot = b.subshellRoot := by
    intro below operator hbuild
    obtain ⟨hnext, hparse⟩ := buildOperator_next hbuild
    refine ⟨⟨?_, ?_⟩, Built.operator_subshellRoot hbuild⟩
    · rw [hnext]
      exact Nat.lt_add_right 2 h.lt
    · rw [hparse]
      exact (Nat.lt_succ_of_lt h.lt).ne
  cases htoken : cell.token with
  | word =>
      simp only [buildToken, htoken] at heq
      obtain ⟨content, -, rfl⟩ := Option.map_eq_some_iff.mp heq
      have hsame : (buildWord content b).next = b.next ∧
          (buildWord content b).parseCommand = b.parseCommand ∧
          (buildWord content b).subshellRoot = b.subshellRoot := by
        unfold buildWord
        dsimp only
        split <;> exact ⟨rfl, rfl, rfl⟩
      refine ⟨⟨?_, ?_⟩, hsame.2.2⟩
      · rw [hsame.1]
        exact h.lt
      · rw [hsame.2.1]
        exact h.parse
  | lbkt =>
      simp only [buildToken, htoken, Option.some.injEq] at heq
      subst heq
      have hlt := h.lt
      exact ⟨⟨Nat.lt_succ_of_lt hlt, hlt.ne⟩, rfl⟩
  | pipeline | and | or | semicolon =>
      simp only [buildToken, htoken] at heq
      exact hoperator _ _ heq
  | rbkt =>
      simp only [buildToken, htoken, Option.some.injEq] at heq
      subst heq
      exact ⟨⟨h.lt, h.parse⟩, rfl⟩
  | input | output | null | halfAnd | endCmd | halfEndCmd =>
      simp only [buildToken, htoken, Option.some.injEq] at heq
      subst heq
      exact ⟨h, rfl⟩

theorem buildRedirection_apart {previous token : TokenType} {content : CString}
    (h : Apart own b) (heq : buildRedirection previous token content b = some b') :
    Apart own b' ∧ b'.subshellRoot = b.subshellRoot := by
  obtain ⟨ptr, -, rfl⟩ := Option.map_eq_some_iff.mp heq
  exact ⟨⟨h.lt, h.parse⟩, rfl⟩

/-- The redirections of the node may be changed before or after the cells. -/
theorem buildTokens_withRedirections {opened : Bool} {previous : TokenType}
    {cells : List Token} (h : Apart own b)
    (hopened : opened = true → b.subshellRoot ≠ some own)
    (hreadable : readableFrom opened previous cells = true) :
    buildTokens previous cells (b.withRedirections own r) =
      (buildTokens previous cells b).map (·.withRedirections own r) := by
  induction opened, previous, cells using readableFrom.induct generalizing b with
  | case1 opened previous => rfl
  | case2 opened previous cell hredirects => simp [readableFrom, hredirects] at hreadable
  | case3 opened previous cell hredirects operand cells ih =>
      simp only [readableFrom, hredirects, if_true, Bool.and_eq_true, Bool.or_eq_true,
        decide_eq_true_eq] at hreadable
      obtain ⟨⟨-, hprevious⟩, hrest⟩ := hreadable
      have hsubshell : previous = .rbkt → b.subshellRoot ≠ some own :=
        fun heq => hopened (hprevious.resolve_left fun hne => hne heq)
      simp only [buildTokens, hredirects, if_true]
      cases operand.content with
      | none => rfl
      | some content =>
          simp only [Option.bind_some]
          rw [buildRedirection_withRedirections h.parse hsubshell]
          cases hbuild : buildRedirection previous cell.token content b with
          | none => rfl
          | some b₁ =>
              obtain ⟨hapart, hroot⟩ := buildRedirection_apart h hbuild
              exact ih hapart (fun hopen => by rw [hroot]; exact hopened hopen) hrest
  | case4 opened previous cell cells hplain ih =>
      have hplain' : cell.token.isRedirection = false := by simpa using hplain
      rw [readableFrom_of_plain hplain', Bool.and_eq_true] at hreadable
      rw [buildTokens_of_plain hplain', buildTokens_of_plain hplain',
        buildToken_withRedirections h.lt fun heq => absurd heq h.parse]
      cases hbuild : buildToken cell b with
      | none => rfl
      | some b₁ =>
          obtain ⟨hapart, hroot⟩ := buildToken_apart h hbuild
          refine ih hapart ?_ hreadable.2
          intro hopen
          rw [hroot]
          split
          · exact fun heq => h.parse (Option.some.inj heq).symm
          · rename_i hlbkt
            exact hopened (by simpa [hlbkt] using hopen)

theorem buildTokens_redirections {opened : Bool} {previous : TokenType}
    {cells : List Token} (h : Apart own b)
    (hopened : opened = true → b.subshellRoot ≠ some own)
    (hreadable : readableFrom opened previous cells = true)
    (heq : buildTokens previous cells b = some b') :
    (b'.heap own).redirections = (b.heap own).redirections :=
  redirections_eq_of_commutes (buildTokens_withRedirections h hopened hreadable) heq

theorem buildTokens_apart {previous : TokenType} {cells : List Token} (h : Apart own b)
    (heq : buildTokens previous cells b = some b') :
    Apart own b' ∧ ((∀ cell ∈ cells, cell.token ≠ .lbkt) →
      b'.subshellRoot = b.subshellRoot) := by
  -- The cells are taken as `completeFrom` takes them; its flag plays no part.
  obtain ⟨pending⟩ : Nonempty Bool := ⟨true⟩
  induction pending, cells using completeFrom.induct generalizing b previous with
  | case1 pending =>
      obtain rfl := Option.some.inj heq
      exact ⟨h, fun _ => rfl⟩
  | case2 pending cell hredirects => simp [buildTokens, hredirects] at heq
  | case3 pending cell hredirects operand cells ih =>
      simp only [buildTokens, hredirects, if_true] at heq
      obtain ⟨content, hcontent, heq⟩ := Option.bind_eq_some_iff.mp heq
      obtain ⟨b₁, hbuild, heq⟩ := Option.bind_eq_some_iff.mp heq
      obtain ⟨hapart, hroot⟩ := buildRedirection_apart h hbuild
      obtain ⟨hapart', hroot'⟩ := ih hapart heq
      exact ⟨hapart', fun hlbkt => (hroot' fun cell hcell => hlbkt cell (by simp [hcell])).trans
        hroot⟩
  | case4 pending cell cells hplain ih =>
      rw [buildTokens_of_plain (by simpa using hplain)] at heq
      obtain ⟨b₁, hbuild, heq⟩ := Option.bind_eq_some_iff.mp heq
      obtain ⟨hapart, hroot⟩ := buildToken_apart h hbuild
      obtain ⟨hapart', hroot'⟩ := ih hapart heq
      refine ⟨hapart', fun hlbkt => ?_⟩
      rw [hroot' fun cell hcell => hlbkt cell (by simp [hcell]), hroot,
        if_neg (hlbkt cell (by simp))]

end Cs111Labs.Shell
