import Cs111Labs.Shell.Targets

/-!
# Two runs over the same cells

Behind a simple command and behind a subshell the builder does the same: the
nodes of the one run lie a fixed number of nodes further in the other, only the
first node is a simple command in the one and a subshell in the other.
-/

namespace Cs111Labs.Shell

open Foundation

variable {b b' c : Builder} {t : HeapTree} {d : Nat} {kept : Ptr → Node} {cell : Token}

/-! ## Shifted nodes -/

/-- Where a node of the first run lies in the second run -/
def shift (d : Nat) (ptr : Ptr) : Ptr :=
  if ptr = 0 then 0 else ptr + d

theorem shift_of_ne {ptr : Ptr} (h : ptr ≠ 0) : shift d ptr = ptr + d :=
  if_neg h

def Members.rename (f : Ptr → Ptr) : Members → Members
  | .word words => .word words
  | .command first second => .command (first.map f) (second.map f)
  | .subshellCommand body => .subshellCommand (body.map f)

def Node.rename (f : Ptr → Ptr) (node : Node) : Node :=
  { node with u := node.u.rename f }

theorem Members.rename_parts (u : Members) (f : Ptr → Ptr) :
    (u.rename f).second = u.second.map f ∧ (u.rename f).body = u.body.map f ∧
      (u.rename f).words = u.words := by
  cases u with
  | word _ | command _ _ | subshellCommand _ => exact ⟨rfl, rfl, rfl⟩

theorem Members.rename_setSecond (u : Members) (f : Ptr → Ptr) (ptr : Option Ptr) :
    (u.setSecond ptr).rename f = (u.rename f).setSecond (ptr.map f) := by
  cases u with
  | word _ | command _ _ | subshellCommand _ => rfl

/-- The second run is the first one with its nodes moved up by `d`. -/
structure Lock (d : Nat) (kept : Ptr → Node) (b c : Builder) : Prop where
  pos : 0 < b.next
  next : c.next = b.next + d
  commandRoot : c.commandRoot = shift d b.commandRoot
  isSubshell : c.isSubshell = b.isSubshell
  subshellRoot : ∀ ptr, b.subshellRoot = some ptr →
    ptr ≠ 0 ∧ ptr < b.next ∧ c.subshellRoot = some (ptr + d)
  heap : ∀ ptr, ptr ≠ 0 → ptr < b.next →
    c.heap (ptr + d) = (b.heap ptr).rename (shift d)
  simple : (b.heap 0).type = some .simpleCommand
  subshell : (c.heap 0).type = some .subshellCommand
  kept : ∀ a ≤ d, c.heap a = kept a

/-- The same between two operators, when `parse_command` is a new node. -/
structure Paired (d : Nat) (kept : Ptr → Node) (b c : Builder) : Prop where
  lock : Lock d kept b c
  parse_ne : b.parseCommand ≠ 0
  parse_lt : b.parseCommand < b.next
  parse : c.parseCommand = b.parseCommand + d

/-! ## Writes and new nodes -/

theorem lt_shifted {a ptr : Ptr} (hne : ptr ≠ 0) (ha : a ≤ d) : a < ptr + d :=
  Nat.lt_of_le_of_lt ha (Nat.lt_add_of_pos_left (Nat.pos_of_ne_zero hne))

theorem Lock.write (h : Lock d kept b c) {ptr : Ptr} (hne : ptr ≠ 0) (node : Node) :
    Lock d kept (b.write ptr node) (c.write (ptr + d) (node.rename (shift d))) where
  pos := h.pos
  next := h.next
  commandRoot := h.commandRoot
  isSubshell := h.isSubshell
  subshellRoot := h.subshellRoot
  heap := by
    intro a ha hlt
    by_cases heq : a = ptr
    · subst heq
      simp [Builder.write]
    · have hne' : a + d ≠ ptr + d := fun h => heq (Nat.add_right_cancel h)
      simpa [Builder.write, heq, hne'] using h.heap a ha hlt
  simple := by simpa [Builder.write, hne.symm] using h.simple
  subshell := by
    have hne' : 0 ≠ ptr + d := (lt_shifted hne (Nat.zero_le d)).ne
    simpa [Builder.write, hne'] using h.subshell
  kept := by
    intro a ha
    have hne' : a ≠ ptr + d := (lt_shifted hne ha).ne
    simpa [Builder.write, hne'] using h.kept a ha

def Builder.alloc (node : Node) (b : Builder) : Builder :=
  { b.write b.next node with next := b.next + 1 }

/-- A node is allocated in both runs. -/
theorem Lock.alloc (h : Lock d kept b c) (node : Node) :
    Lock d kept (b.alloc node) (c.alloc (node.rename (shift d))) := by
  have hwrite := h.write h.pos.ne' node
  rw [← h.next] at hwrite
  exact {
    pos := Nat.succ_pos _
    next := by
      have hnext : c.next + 1 = b.next + 1 + d := by
        rw [h.next]
        exact Nat.add_right_comm b.next d 1
      exact hnext
    commandRoot := hwrite.commandRoot
    isSubshell := hwrite.isSubshell
    subshellRoot := fun ptr hptr =>
      have hsub := h.subshellRoot ptr hptr
      ⟨hsub.1, Nat.lt_succ_of_lt hsub.2.1, hsub.2.2⟩
    heap := by
      intro a ha hlt
      by_cases heq : a = b.next
      · subst heq
        simp [Builder.alloc, Builder.write, h.next]
      · exact hwrite.heap a ha (Nat.lt_of_le_of_ne (Nat.le_of_lt_succ hlt) heq)
    simple := hwrite.simple
    subshell := hwrite.subshell
    kept := hwrite.kept }

theorem Lock.setRoot (h : Lock d kept b c) (root : Ptr) :
    Lock d kept { b with commandRoot := root } { c with commandRoot := shift d root } :=
  { h with commandRoot := rfl }

/-- `parse_command` is set to the node that was allocated last. -/
theorem Lock.paired (h : Lock d kept b c) {ptr : Ptr} (hne : ptr ≠ 0) (hlt : ptr < b.next) :
    Paired d kept { b with parseCommand := ptr } { c with parseCommand := ptr + d } where
  lock := { h with }
  parse_ne := hne
  parse_lt := hlt
  parse := rfl

theorem putAbove_eq (b : Builder) (left : Option Ptr) (operator : Operator) :
    b.putAbove left operator =
      { (b.alloc { type := some (.operator operator)
                   u := .command left (some (b.next + 1)) }).alloc {} with
        parseCommand := b.next + 1 } :=
  rfl

theorem Lock.putAbove (h : Lock d kept b c) (left : Option Ptr) (operator : Operator) :
    Paired d kept (b.putAbove left operator) (c.putAbove (left.map (shift d)) operator) := by
  have hright : c.next + 1 = b.next + 1 + d := by
    rw [h.next]
    exact Nat.add_right_comm b.next d 1
  have hnew : c.putAbove (left.map (shift d)) operator =
      { (c.alloc (Node.rename (shift d) { type := some (.operator operator)
                                          u := .command left (some (b.next + 1)) })).alloc
          (Node.rename (shift d) {}) with parseCommand := b.next + 1 + d } := by
    rw [putAbove_eq, hright, ← shift_of_ne (Nat.succ_ne_zero b.next)]
    rfl
  rw [hnew, putAbove_eq]
  exact ((h.alloc _).alloc {}).paired (Nat.succ_ne_zero _) (Nat.lt_succ_self _)

/-! ## Operators -/

theorem Lock.top (h : Lock d kept b c) {top : Ptr} (htop : b.top = some top) :
    c.top = some (shift d top) := by
  unfold Builder.top at htop ⊢
  rw [h.isSubshell]
  split at htop
  · rename_i hinside
    obtain ⟨root, hroot, hbody⟩ := Option.bind_eq_some_iff.mp htop
    obtain ⟨hne, hlt, hroot'⟩ := h.subshellRoot root hroot
    rw [if_pos hinside, hroot', Option.bind_some, h.heap root hne hlt, Node.rename,
      ((b.heap root).u.rename_parts (shift d)).2.1, hbody]
    rfl
  · rename_i houtside
    obtain rfl := Option.some.inj htop
    rw [if_neg houtside, h.commandRoot]

theorem Lock.setTop (h : Lock d kept b c) (hsome : b.isSubshell = true → b.subshellRoot.isSome)
    {ptr : Ptr} (hne : ptr ≠ 0) : Lock d kept (b.setTop ptr) (c.setTop (ptr + d)) := by
  have hinside' := h.isSubshell
  cases hinside : b.isSubshell with
  | true =>
      obtain ⟨root, hroot⟩ := Option.isSome_iff_exists.mp (hsome hinside)
      obtain ⟨hne', hlt, hroot'⟩ := h.subshellRoot root hroot
      have hset : b.setTop ptr =
          b.write root { b.heap root with u := .subshellCommand (some ptr) } := by
        simp [Builder.setTop, hinside, hroot]
      have hset' : c.setTop (ptr + d) = c.write (root + d)
          { c.heap (root + d) with u := .subshellCommand (some (ptr + d)) } := by
        simp [Builder.setTop, hinside', hinside, hroot']
      rw [hset, hset', h.heap root hne' hlt, ← shift_of_ne hne]
      exact h.write hne' { b.heap root with u := .subshellCommand (some ptr) }
  | false =>
      have hset : b.setTop ptr = { b with commandRoot := ptr } := by
        simp [Builder.setTop, hinside]
      have hset' : c.setTop (ptr + d) = { c with commandRoot := shift d ptr } := by
        simp [Builder.setTop, hinside', hinside, shift_of_ne hne]
      rw [hset, hset']
      exact h.setRoot ptr

theorem Lock.above (h : Lock d kept b c) (hsome : b.isSubshell = true → b.subshellRoot.isSome)
    (top : Ptr) (operator : Operator) :
    Paired d kept ((b.setTop b.next).putAbove (some top) operator)
      ((c.setTop c.next).putAbove (some (shift d top)) operator) := by
  rw [h.next]
  exact (h.setTop hsome h.pos.ne').putAbove (some top) operator

theorem Lock.below (h : Lock d kept b c) {top : Ptr} (hne : top ≠ 0) (hlt : top < b.next)
    (operator : Operator) :
    Paired d kept
      ((b.write top { b.heap top with
        u := (b.heap top).u.setSecond (some b.next) }).putAbove (b.heap top).u.second operator)
      ((c.write (top + d) { c.heap (top + d) with
        u := (c.heap (top + d)).u.setSecond (some c.next) }).putAbove
          (c.heap (top + d)).u.second operator) := by
  have hnode : ({ b.heap top with u := (b.heap top).u.setSecond (some b.next) } : Node).rename
      (shift d) = { c.heap (top + d) with
        u := (c.heap (top + d)).u.setSecond (some c.next) } := by
    rw [h.heap top hne hlt, h.next, ← shift_of_ne h.pos.ne']
    simp [Node.rename, Members.rename_setSecond]
  have hsecond : (c.heap (top + d)).u.second = (b.heap top).u.second.map (shift d) := by
    rw [h.heap top hne hlt]
    exact ((b.heap top).u.rename_parts (shift d)).1
  rw [← hnode, hsecond]
  exact (h.write hne _).putAbove _ operator

/-- The top node is an operator node in both runs or in neither. -/
theorem Lock.operator (h : Lock d kept b c) (hbuilt : Built b t) {below : Operator → Bool}
    {operator : Operator} (heq : buildOperator below operator b = some b') :
    ∃ c', buildOperator below operator c = some c' ∧ Paired d kept b' c' := by
  obtain ⟨top, hmem, htop⟩ := hbuilt.top
  have htop' := h.top htop
  have htype : ∀ topOperator, (c.heap (shift d top)).type = some (.operator topOperator) ↔
      (b.heap top).type = some (.operator topOperator) := by
    intro topOperator
    by_cases hzero : top = 0
    · subst hzero
      have hsubshell : (c.heap (shift d 0)).type = some .subshellCommand := h.subshell
      simp [hsubshell, h.simple]
    · rw [shift_of_ne hzero, h.heap top hzero (hbuilt.bound top hmem), Node.rename]
  rcases below_or_above below (b.heap top) with ⟨topOperator, hoperator, hbelow⟩ | hnot
  · have hzero : top ≠ 0 := by
      rintro rfl
      simp [h.simple] at hoperator
    rw [buildOperator_below htop hoperator hbelow] at heq
    obtain rfl := Option.some.inj heq
    refine ⟨_, buildOperator_below htop' ((htype _).mpr hoperator) hbelow operator, ?_⟩
    rw [shift_of_ne hzero]
    exact h.below hzero (hbuilt.bound top hmem) operator
  · rw [buildOperator_above htop hnot] at heq
    obtain rfl := Option.some.inj heq
    exact ⟨_, buildOperator_above htop' (fun topOperator hoperator =>
      hnot topOperator ((htype _).mp hoperator)) operator,
      h.above hbuilt.subshell_isSome top operator⟩

/-! ## The other tokens -/

theorem Paired.word (h : Paired d kept b c) (content : CString) :
    Paired d kept (buildWord content b) (buildWord content c) := by
  have hnode := h.lock.heap b.parseCommand h.parse_ne h.parse_lt
  have hwrite := h.lock.write h.parse_ne
  rw [← h.parse] at hnode hwrite
  have htype : (c.heap c.parseCommand).type = (b.heap b.parseCommand).type := by
    rw [hnode]
    rfl
  have hwords : (c.heap c.parseCommand).u.words = (b.heap b.parseCommand).u.words := by
    rw [hnode]
    exact ((b.heap b.parseCommand).u.rename_parts (shift d)).2.2
  by_cases hsimple : (b.heap b.parseCommand).type = some .simpleCommand
  · have hnew : buildWord content b = b.write b.parseCommand { b.heap b.parseCommand with
        u := .word ((b.heap b.parseCommand).u.words ++ [content]) } := if_pos hsimple
    have hnew' : buildWord content c = c.write c.parseCommand { c.heap c.parseCommand with
        u := .word ((c.heap c.parseCommand).u.words ++ [content]) } :=
      if_pos (htype.trans hsimple)
    rw [hnew, hnew', hwords, hnode]
    exact { h with lock := hwrite _ }
  · have hnew : buildWord content b = b.write b.parseCommand
        { type := some .simpleCommand, u := .word [content] } := if_neg hsimple
    have hnew' : buildWord content c = c.write c.parseCommand
        { type := some .simpleCommand, u := .word [content] } :=
      if_neg (by rwa [htype])
    rw [hnew, hnew']
    exact { h with lock := hwrite _ }

theorem Lock.enter (h : Lock d kept b c) {root : Ptr} (hne : root ≠ 0) (hlt : root < b.next) :
    Lock d kept { b with isSubshell := true, subshellRoot := some root }
      { c with isSubshell := true, subshellRoot := some (root + d) } :=
  { h with
    isSubshell := rfl
    subshellRoot := by
      intro ptr hptr
      obtain rfl := Option.some.inj hptr
      exact ⟨hne, hlt, rfl⟩ }

theorem Paired.lbkt (h : Paired d kept b c) :
    Paired d kept (buildLbkt b) (buildLbkt c) := by
  have hnode := h.lock.heap b.parseCommand h.parse_ne h.parse_lt
  have hwrite := (h.lock.write h.parse_ne { b.heap b.parseCommand with
    type := some .subshellCommand, u := .subshellCommand (some b.next) }).alloc
      { u := .subshellCommand none }
  have hbody : ({ b.heap b.parseCommand with
      type := some .subshellCommand
      u := .subshellCommand (some b.next) } : Node).rename (shift d) =
        { c.heap (b.parseCommand + d) with
          type := some .subshellCommand
          u := .subshellCommand (some (b.next + d)) } := by
    rw [hnode, ← shift_of_ne h.lock.pos.ne']
    rfl
  rw [hbody] at hwrite
  have hpaired := (hwrite.enter h.parse_ne (Nat.lt_succ_of_lt h.parse_lt)).paired
    h.lock.pos.ne' (Nat.lt_succ_self _)
  have hnew : buildLbkt c = { (c.write (b.parseCommand + d) { c.heap (b.parseCommand + d) with
      type := some .subshellCommand
      u := .subshellCommand (some (b.next + d)) }).alloc
        (Node.rename (shift d) { u := .subshellCommand none }) with
      isSubshell := true
      subshellRoot := some (b.parseCommand + d)
      parseCommand := b.next + d } := by
    rw [← h.parse, ← h.lock.next]
    rfl
  rw [hnew]
  exact hpaired

theorem Paired.leave (h : Paired d kept b c) :
    Paired d kept { b with isSubshell := false } { c with isSubshell := false } :=
  { h with lock := { h.lock with isSubshell := rfl } }

theorem Paired.redirection (h : Paired d kept b c) {previous token : TokenType}
    {content : CString} (heq : buildRedirection previous token content b = some b') :
    ∃ c', buildRedirection previous token content c = some c' ∧ Paired d kept b' c' := by
  have hset : ∀ node : Node, (setRedirection token content node).rename (shift d) =
      setRedirection token content (node.rename (shift d)) := by
    intro node
    unfold setRedirection
    split
    · rfl
    · rfl
  obtain ⟨ptr, hptr, rfl⟩ := Option.map_eq_some_iff.mp heq
  obtain ⟨hne, hlt, hptr'⟩ : ptr ≠ 0 ∧ ptr < b.next ∧
      (if previous = .rbkt then c.subshellRoot else some c.parseCommand) = some (ptr + d) := by
    by_cases hrbkt : previous = .rbkt
    · rw [if_pos hrbkt] at hptr ⊢
      exact h.lock.subshellRoot ptr hptr
    · rw [if_neg hrbkt] at hptr ⊢
      obtain rfl := Option.some.inj hptr
      exact ⟨h.parse_ne, h.parse_lt, by rw [h.parse]⟩
  have hwrite := h.lock.write hne (setRedirection token content (b.heap ptr))
  rw [hset, ← h.lock.heap ptr hne hlt] at hwrite
  exact ⟨_, by rw [buildRedirection, hptr', Option.map_some], { h with lock := hwrite }⟩

theorem Paired.token (h : Paired d kept b c) (hbuilt : Built b t)
    (heq : buildToken cell b = some b') :
    ∃ c', buildToken cell c = some c' ∧ Paired d kept b' c' := by
  cases htoken : cell.token with
  | word =>
      simp only [buildToken, htoken] at heq ⊢
      obtain ⟨content, hcontent, rfl⟩ := Option.map_eq_some_iff.mp heq
      exact ⟨_, by rw [hcontent, Option.map_some], h.word content⟩
  | pipeline | and | or | semicolon =>
      simp only [buildToken, htoken] at heq ⊢
      exact h.lock.operator hbuilt heq
  | lbkt =>
      simp only [buildToken, htoken] at heq ⊢
      obtain rfl := Option.some.inj heq
      exact ⟨_, rfl, h.lbkt⟩
  | rbkt =>
      simp only [buildToken, htoken] at heq ⊢
      obtain rfl := Option.some.inj heq
      exact ⟨_, rfl, h.leave⟩
  | input | output | null | halfAnd | endCmd | halfEndCmd =>
      simp only [buildToken, htoken] at heq ⊢
      obtain rfl := Option.some.inj heq
      exact ⟨_, rfl, h⟩

/-! ## Operator nodes stay -/

/-- `first` is the left child of the operator node at `ptr`. -/
def Builder.LeftChild (b : Builder) (ptr first : Ptr) : Prop :=
  ptr < b.next ∧ ∃ operator second, (b.heap ptr).type = some (.operator operator) ∧
    (b.heap ptr).u = .command (some first) second

/-- Left children stay, and the old root is at the left below the new one. -/
structure Raises (b b' : Builder) : Prop where
  left : ∀ ptr first, b.LeftChild ptr first → b'.LeftChild ptr first
  root : Relation.ReflTransGen b'.LeftChild b'.commandRoot b.commandRoot

theorem Raises.refl (b : Builder) : Raises b b :=
  ⟨fun _ _ h => h, .refl⟩

theorem Raises.trans {b'' : Builder} (h : Raises b b') (h' : Raises b' b'') :
    Raises b b'' where
  left ptr first hleft := h'.left ptr first (h.left ptr first hleft)
  root := h'.root.trans (Relation.ReflTransGen.mono h'.left _ _ h.root)

/-- The root is an operator node for ever. -/
theorem Raises.operator (h : Raises b b') {first : Ptr}
    (hroot : b.LeftChild b.commandRoot first) :
    ∃ first', b'.LeftChild b'.commandRoot first' := by
  rcases h.root.cases_head with heq | ⟨first', hfirst, -⟩
  · exact ⟨first, heq ▸ h.left _ _ hroot⟩
  · exact ⟨first', hfirst⟩

theorem Raises.write {ptr : Ptr} {node : Node}
    (hkeeps : ∀ operator first second, (b.heap ptr).type = some (.operator operator) →
      (b.heap ptr).u = .command (some first) second →
      node.type = some (.operator operator) ∧
        ∃ second', node.u = .command (some first) second') :
    Raises b (b.write ptr node) where
  left := by
    rintro a first ⟨hlt, operator, second, htype, hu⟩
    by_cases heq : a = ptr
    · subst heq
      obtain ⟨htype', second', hu'⟩ := hkeeps operator first second htype hu
      exact ⟨hlt, operator, second', by simp [Builder.write, htype'],
        by simp [Builder.write, hu']⟩
    · exact ⟨hlt, operator, second, by simpa [Builder.write, heq] using htype,
        by simpa [Builder.write, heq] using hu⟩
  root := .refl

/-- A node that is no operator node may be changed to anything. -/
theorem Raises.write_of_ne {ptr : Ptr} (node : Node)
    (hne : ∀ operator, (b.heap ptr).type ≠ some (.operator operator)) :
    Raises b (b.write ptr node) :=
  .write fun operator _ _ htype _ => absurd htype (hne operator)

theorem Raises.putAbove (b : Builder) (left : Option Ptr) (operator : Operator) :
    Raises b (b.putAbove left operator) where
  left := by
    rintro a first ⟨hlt, operator', second, htype, hu⟩
    have hheap := putAbove_heap hlt left operator
    exact ⟨Nat.lt_add_right 2 hlt, operator', second, hheap ▸ htype, hheap ▸ hu⟩
  root := .refl

theorem Built.parse_ne_operator (h : Built b t) (operator : Operator) :
    (b.heap b.parseCommand).type ≠ some (.operator operator) := by
  intro htype
  rcases h.parse_leaf with hleaf | hleaf
  · simp [htype] at hleaf
  · simp [htype] at hleaf

/-- The operator goes above the top node. -/
theorem Built.raises_above (h : Built b t) {top : Ptr} (htop : b.top = some top)
    (operator : Operator) :
    Raises b ((b.setTop b.next).putAbove (some top) operator) ∧ (b.isSubshell = false →
      ∃ first, ((b.setTop b.next).putAbove (some top) operator).LeftChild
        ((b.setTop b.next).putAbove (some top) operator).commandRoot first) := by
  cases hinside : b.isSubshell with
  | true =>
      obtain ⟨root, hroot⟩ := Option.isSome_iff_exists.mp (h.subshell_isSome hinside)
      have htype := (h.subshell_mem root hroot).2
      have hset : b.setTop b.next =
          b.write root { b.heap root with u := .subshellCommand (some b.next) } := by
        simp [Builder.setTop, hinside, hroot]
      rw [hset]
      exact ⟨(Raises.write_of_ne _ fun operator => by simp [htype]).trans (.putAbove _ _ _),
        fun hfalse => absurd hfalse (by simp)⟩
  | false =>
      obtain rfl : b.commandRoot = top := by simpa [Builder.top, hinside] using htop
      have hset : b.setTop b.next = { b with commandRoot := b.next } := by
        simp [Builder.setTop, hinside]
      rw [hset]
      set b₁ : Builder := { b with commandRoot := b.next }
      have hnew : (b₁.putAbove (some b.commandRoot) operator).LeftChild b.next
          b.commandRoot :=
        ⟨Nat.lt_add_of_pos_right (by simp), operator, some (b.next + 1),
          congrArg Node.type (putAbove_new b₁ _ operator).1,
          congrArg Node.u (putAbove_new b₁ _ operator).1⟩
      exact ⟨⟨(Raises.putAbove b₁ _ operator).left, .single hnew⟩, fun _ => ⟨_, hnew⟩⟩

/-- It goes above the right child of the top node. -/
theorem Built.raises_below (h : Built b t) {top : Ptr} (htop : b.top = some top)
    {topOperator : Operator} (htype : (b.heap top).type = some (.operator topOperator))
    (operator : Operator) :
    let b' := (b.write top { b.heap top with
      u := (b.heap top).u.setSecond (some b.next) }).putAbove (b.heap top).u.second operator
    Raises b b' ∧ (b.isSubshell = false → ∃ first, b'.LeftChild b'.commandRoot first) := by
  intro b'
  obtain ⟨top', hmem, htop'⟩ := h.top
  obtain rfl := Option.some.inj (htop'.symm.trans htop)
  have hproper := h.proper top' hmem
  simp only [Node.Proper, htype] at hproper
  obtain ⟨first, second, hu⟩ := hproper
  have hraises : Raises b b' := by
    refine (Raises.write ?_).trans (.putAbove _ _ _)
    intro operator' first' second' htype' hu'
    refine ⟨htype', some b.next, ?_⟩
    rw [hu']
    rfl
  refine ⟨hraises, fun houtside => ⟨first, ?_⟩⟩
  obtain rfl : b.commandRoot = top' := by simpa [Builder.top, houtside] using htop
  exact hraises.left _ _ ⟨h.bound _ hmem, topOperator, some second, htype, hu⟩

theorem Built.raises_operator (h : Built b t) {below : Operator → Bool}
    {operator : Operator} (heq : buildOperator below operator b = some b') :
    Raises b b' ∧ (b.isSubshell = false → ∃ first, b'.LeftChild b'.commandRoot first) := by
  obtain ⟨top, -, htop⟩ := h.top
  rcases below_or_above below (b.heap top) with ⟨topOperator, htype, hbelow⟩ | hnot
  · rw [buildOperator_below htop htype hbelow] at heq
    obtain rfl := Option.some.inj heq
    exact h.raises_below htop htype operator
  · rw [buildOperator_above htop hnot] at heq
    obtain rfl := Option.some.inj heq
    exact h.raises_above htop operator

theorem Built.raises_token (h : Built b t) (heq : buildToken cell b = some b') :
    Raises b b' := by
  cases htoken : cell.token with
  | word =>
      simp only [buildToken, htoken] at heq
      obtain ⟨content, -, rfl⟩ := Option.map_eq_some_iff.mp heq
      unfold buildWord
      dsimp only
      split
      · exact .write_of_ne _ h.parse_ne_operator
      · exact .write_of_ne _ h.parse_ne_operator
  | pipeline | and | or | semicolon =>
      simp only [buildToken, htoken] at heq
      exact (h.raises_operator heq).1
  | lbkt =>
      simp only [buildToken, htoken] at heq
      obtain rfl := Option.some.inj heq
      refine ⟨?_, .refl⟩
      rintro a first ⟨hlt, operator, second, htype, hu⟩
      have hne : a ≠ b.parseCommand := by
        rintro rfl
        exact h.parse_ne_operator operator htype
      have hheap : (buildLbkt b).heap a = b.heap a := by
        simp [buildLbkt, Builder.write, hne, hlt.ne]
      exact ⟨Nat.lt_succ_of_lt hlt, operator, second, hheap ▸ htype, hheap ▸ hu⟩
  | rbkt =>
      simp only [buildToken, htoken] at heq
      obtain rfl := Option.some.inj heq
      exact ⟨fun _ _ hleft => hleft, .refl⟩
  | input | output | null | halfAnd | endCmd | halfEndCmd =>
      simp only [buildToken, htoken] at heq
      obtain rfl := Option.some.inj heq
      exact .refl b

theorem raises_redirection {previous token : TokenType} {content : CString}
    (heq : buildRedirection previous token content b = some b') : Raises b b' := by
  obtain ⟨ptr, -, rfl⟩ := Option.map_eq_some_iff.mp heq
  refine .write fun operator first second htype hu => ?_
  unfold setRedirection
  split
  · exact ⟨htype, second, hu⟩
  · exact ⟨htype, second, hu⟩

/-! ## Runs -/

theorem Built.raises_tokens (h : Built b t) {previous : TokenType} {cells : List Token}
    (heq : buildTokens previous cells b = some b') :
    Raises b b' ∧ ∃ t', Built b' t' := by
  -- The cells are taken as `completeFrom` takes them; its flag plays no part.
  obtain ⟨pending⟩ : Nonempty Bool := ⟨true⟩
  induction pending, cells using completeFrom.induct generalizing b t previous with
  | case1 pending =>
      obtain rfl := Option.some.inj heq
      exact ⟨.refl b, t, h⟩
  | case2 pending cell hredirects => simp [buildTokens, hredirects] at heq
  | case3 pending cell hredirects operand cells ih =>
      simp only [buildTokens, hredirects, if_true] at heq
      obtain ⟨content, -, heq⟩ := Option.bind_eq_some_iff.mp heq
      obtain ⟨b₁, hbuild, heq⟩ := Option.bind_eq_some_iff.mp heq
      obtain ⟨hraises, hbuilt⟩ := ih (h.redirection hbuild).1 heq
      exact ⟨(raises_redirection hbuild).trans hraises, hbuilt⟩
  | case4 pending cell cells hplain ih =>
      have hplain' : cell.token.isRedirection = false := by simpa using hplain
      rw [buildTokens_of_plain hplain'] at heq
      obtain ⟨b₁, hbuild, heq⟩ := Option.bind_eq_some_iff.mp heq
      obtain ⟨t₁, hbuilt₁, -⟩ := h.token hbuild hplain'
      obtain ⟨hraises, hbuilt⟩ := ih hbuilt₁ heq
      exact ⟨(h.raises_token hbuild).trans hraises, hbuilt⟩

/-- The second run does not stop where the first one goes on. -/
theorem Paired.tokens (h : Paired d kept b c) (hbuilt : Built b t) {previous : TokenType}
    {cells : List Token} (heq : buildTokens previous cells b = some b') :
    ∃ c', buildTokens previous cells c = some c' ∧ Lock d kept b' c' := by
  -- As above
  obtain ⟨pending⟩ : Nonempty Bool := ⟨true⟩
  induction pending, cells using completeFrom.induct generalizing b c t previous with
  | case1 pending =>
      obtain rfl := Option.some.inj heq
      exact ⟨c, rfl, h.lock⟩
  | case2 pending cell hredirects => simp [buildTokens, hredirects] at heq
  | case3 pending cell hredirects operand cells ih =>
      simp only [buildTokens, hredirects, if_true] at heq ⊢
      obtain ⟨content, hcontent, heq⟩ := Option.bind_eq_some_iff.mp heq
      obtain ⟨b₁, hbuild, heq⟩ := Option.bind_eq_some_iff.mp heq
      obtain ⟨c₁, hbuild', hpaired⟩ := h.redirection hbuild
      rw [hcontent, Option.bind_some, hbuild', Option.bind_some]
      exact ih hpaired (hbuilt.redirection hbuild).1 heq
  | case4 pending cell cells hplain ih =>
      have hplain' : cell.token.isRedirection = false := by simpa using hplain
      rw [buildTokens_of_plain hplain'] at heq ⊢
      obtain ⟨b₁, hbuild, heq⟩ := Option.bind_eq_some_iff.mp heq
      obtain ⟨c₁, hbuild', hpaired⟩ := h.token hbuilt hbuild
      obtain ⟨t₁, hbuilt₁, -⟩ := hbuilt.token hbuild hplain'
      rw [hbuild', Option.bind_some]
      exact ih hpaired hbuilt₁ heq

/-! ## The two trees -/

/-- The tree with another command as its first one -/
def Command.replaceFirst : Command → Command → Command
  | .binary type redirections left right, x =>
      .binary type redirections (left.replaceFirst x) right
  | .simple _ _, x => x
  | .subshell _ _, x => x

variable {command : Command}

/-- A tree without the first node -/
theorem Lock.stores (h : Lock d kept b c) (hstored : t.Stored b.kids)
    (hbound : ∀ ptr ∈ t.addrs, ptr ≠ 0 ∧ ptr < b.next)
    (hcommand : Stores b.heap t.addr command) : Stores c.heap (t.addr + d) command := by
  induction command generalizing t with
  | simple redirections word =>
      obtain ⟨hne, hlt⟩ := hbound t.addr t.addr_mem
      obtain ⟨htype, hredirections, hu, hword⟩ := hcommand
      rw [Stores, h.heap t.addr hne hlt]
      exact ⟨htype, hredirections, by rw [Node.rename, hu]; rfl, hword⟩
  | subshell redirections body ih =>
      obtain ⟨hne, hlt⟩ := hbound t.addr t.addr_mem
      obtain ⟨htype, hredirections, first, hu, hbody⟩ := hcommand
      obtain ⟨sub, ht, rfl, hsub⟩ := hstored.eq_one (Node.kids_eq_one.mpr ⟨htype, hu⟩)
      have hbound' : ∀ ptr ∈ sub.addrs, ptr ≠ 0 ∧ ptr < b.next := by
        intro ptr hptr
        exact hbound ptr (by rw [ht, HeapTree.addrs]; simp [hptr])
      rw [Stores, h.heap t.addr hne hlt]
      refine ⟨htype, hredirections, sub.addr + d, ?_, ih hsub hbound' hbody⟩
      rw [Node.rename, hu, ← shift_of_ne (hbound' _ sub.addr_mem).1]
      rfl
  | binary type redirections left right ihLeft ihRight =>
      obtain ⟨hne, hlt⟩ := hbound t.addr t.addr_mem
      obtain ⟨htype, hredirections, first, second, hu, hleft, hright⟩ := hcommand
      obtain ⟨l, r, ht, rfl, rfl, hl, hr⟩ :=
        hstored.eq_two (Node.kids_eq_two.mpr ⟨type, htype, hu⟩)
      have hbound' : ∀ ptr ∈ l.addrs ++ r.addrs, ptr ≠ 0 ∧ ptr < b.next := by
        intro ptr hptr
        exact hbound ptr (by rw [ht, HeapTree.addrs]; exact List.mem_cons_of_mem _ hptr)
      rw [Stores, h.heap t.addr hne hlt]
      refine ⟨htype, hredirections, l.addr + d, r.addr + d, ?_,
        ihLeft hl (fun ptr hptr => hbound' ptr (List.mem_append_left _ hptr)) hleft,
        ihRight hr (fun ptr hptr => hbound' ptr (List.mem_append_right _ hptr)) hright⟩
      rw [Node.rename, hu,
        ← shift_of_ne (hbound' l.addr (List.mem_append_left _ l.addr_mem)).1,
        ← shift_of_ne (hbound' r.addr (List.mem_append_right _ r.addr_mem)).1]
      rfl

/-- The tree with the first node at its left end -/
theorem Lock.stores_replaceFirst (h : Lock d kept b c) {root : Ptr}
    (hpath : Relation.ReflTransGen b.LeftChild root 0) (hroot : t.addr = root)
    (hstored : t.Stored b.kids) (hnodup : t.addrs.Nodup)
    (hbound : ∀ ptr ∈ t.addrs, ptr < b.next) {x : Command} (hx : Stores c.heap 0 x)
    (hcommand : Stores b.heap root command) :
    0 ∈ t.addrs ∧ Stores c.heap (shift d root) (command.replaceFirst x) := by
  induction hpath using Relation.ReflTransGen.head_induction_on generalizing t command with
  | refl =>
      refine ⟨hroot ▸ t.addr_mem, ?_⟩
      have hsimple := h.simple
      cases command with
      | simple _ _ => exact hx
      | subshell _ _ | binary _ _ _ _ => simp [hcommand.1] at hsimple
  | @head ptr first hleft _ ih =>
      subst hroot
      obtain ⟨hlt, operator, second, htype, hu⟩ := hleft
      have hne : t.addr ≠ 0 := by
        intro hzero
        have hsimple := h.simple
        rw [← hzero, htype] at hsimple
        simp at hsimple
      cases command with
      | simple _ _ | subshell _ _ => simp [Stores, htype] at hcommand
      | binary type redirections left right =>
          obtain ⟨htype', hredirections, first', second', hu', hleft, hright⟩ := hcommand
          obtain ⟨rfl, rfl⟩ : first' = first ∧ second = some second' := by
            simpa [hu, eq_comm] using hu'
          obtain ⟨l, r, ht, rfl, rfl, hl, hr⟩ :=
            hstored.eq_two (Node.kids_eq_two.mpr ⟨operator, htype, hu⟩)
          rw [ht, HeapTree.addrs, List.nodup_cons, List.nodup_append] at hnodup
          rw [ht, HeapTree.addrs, List.forall_mem_cons, List.forall_mem_append] at hbound
          obtain ⟨hmem, hstores⟩ := ih rfl hl hnodup.2.1 hbound.2.1 hleft
          have hbound' : ∀ ptr ∈ r.addrs, ptr ≠ 0 ∧ ptr < b.next := by
            intro ptr hptr
            exact ⟨(hnodup.2.2.2 0 hmem ptr hptr).symm, hbound.2.2 ptr hptr⟩
          refine ⟨by rw [ht, HeapTree.addrs]; simp [hmem], ?_⟩
          rw [shift_of_ne hne, Command.replaceFirst, Stores, h.heap t.addr hne hlt]
          refine ⟨htype', hredirections, shift d l.addr, r.addr + d, ?_, hstores,
            h.stores hr hbound' hright⟩
          rw [Node.rename, hu, ← shift_of_ne (hbound' r.addr r.addr_mem).1]
          rfl

end Cs111Labs.Shell
