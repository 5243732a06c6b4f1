import Cs111Labs.Foundation.HeapTree
import Cs111Labs.Shell.Builder

/-!
# What the tree builder returns

The nodes below the root form a tree without sharing at every point of a call.
All of its leaves but the one at `parse_command` keep the type they have, so a
leaf that is left without a word stays unset in the command that is returned.
-/

namespace Cs111Labs.Shell

open Foundation

variable {b b' : Builder} {t t' : HeapTree} {cell : Token}

/-! ## Well-formed commands -/

def Node.redirections (node : Node) : Redirections := ⟨node.input, node.output⟩

/-- The nodes from `ptr` on hold the tree `command`. -/
def Stores (heap : Ptr → Node) : Ptr → Command → Prop
  | ptr, .binary type redirections left right =>
      (heap ptr).type = some (.operator type) ∧
        (heap ptr).redirections = redirections ∧
        ∃ first second, (heap ptr).u = .command (some first) (some second) ∧
          Stores heap first left ∧ Stores heap second right
  | ptr, .simple redirections word =>
      (heap ptr).type = some .simpleCommand ∧
        (heap ptr).redirections = redirections ∧
        (heap ptr).u = .word word ∧ word ≠ []
  | ptr, .subshell redirections body =>
      (heap ptr).type = some .subshellCommand ∧
        (heap ptr).redirections = redirections ∧
        ∃ first, (heap ptr).u = .subshellCommand (some first) ∧
          Stores heap first body

def Parsed.WellFormed (parsed : Parsed) : Prop :=
  ∃ command, Stores parsed.heap parsed.commandRoot command

/-! ## Operators -/

section Operator

variable {top : Ptr} {topOperator : Operator} {below : Operator → Bool}

theorem buildOperator_below (htop : b.top = some top)
    (htype : (b.heap top).type = some (.operator topOperator))
    (hbelow : below topOperator = true) (operator : Operator) :
    buildOperator below operator b = some ((b.write top { b.heap top with
      u := (b.heap top).u.setSecond (some b.next) }).putAbove (b.heap top).u.second
        operator) := by
  simp [buildOperator, htop, htype, hbelow]

theorem buildOperator_above (htop : b.top = some top)
    (hnot : ∀ topOperator, (b.heap top).type = some (.operator topOperator) →
      below topOperator = false) (operator : Operator) :
    buildOperator below operator b =
      some ((b.setTop b.next).putAbove (some top) operator) := by
  rw [buildOperator, htop, Option.map_some]
  dsimp only
  split
  · rename_i topOperator htype
    rw [hnot topOperator htype]
    rfl
  · rfl

/-- An operator goes below the top node or above it. -/
theorem below_or_above (below : Operator → Bool) (node : Node) :
    (∃ topOperator, node.type = some (.operator topOperator) ∧ below topOperator = true) ∨
      ∀ topOperator, node.type = some (.operator topOperator) → below topOperator = false := by
  by_cases hbelow : ∃ topOperator, node.type = some (.operator topOperator) ∧
      below topOperator = true
  · exact .inl hbelow
  · refine .inr fun topOperator htype => ?_
    simpa using fun htrue => hbelow ⟨topOperator, htype, htrue⟩

end Operator

/-! ## Nodes -/

/-- The nodes that a node points to. -/
def Node.kids (node : Node) : Kids :=
  match node.type, node.u with
  | some (.operator _), .command (some first) (some second) => .two first second
  | some .subshellCommand, .subshellCommand (some body) => .one body
  | _, _ => .none

/-- The members that belong to the type are there. -/
def Node.Proper (node : Node) : Prop :=
  match node.type with
  | none => True
  | some .simpleCommand => ∃ word, node.u = .word word ∧ word ≠ []
  | some (.operator _) =>
      ∃ first second, node.u = .command (some first) (some second)
  | some .subshellCommand => ∃ body, node.u = .subshellCommand (some body)

def Builder.kids (b : Builder) (ptr : Ptr) : Kids := (b.heap ptr).kids

/-- `parse_command` has no word yet. -/
def Builder.pending (b : Builder) : Bool := (b.heap b.parseCommand).type = none

structure Built (b : Builder) (t : HeapTree) : Prop where
  stored : t.Stored b.kids
  root : t.addr = b.commandRoot
  nodup : t.addrs.Nodup
  bound : ∀ ptr ∈ t.addrs, ptr < b.next
  proper : ∀ ptr ∈ t.addrs, (b.heap ptr).Proper
  parse_mem : b.parseCommand ∈ t.addrs
  parse_leaf : (b.heap b.parseCommand).type = none ∨
    (b.heap b.parseCommand).type = some .simpleCommand
  subshell_isSome : b.isSubshell = true → b.subshellRoot.isSome
  subshell_mem : ∀ ptr, b.subshellRoot = some ptr →
    ptr ∈ t.addrs ∧ (b.heap ptr).type = some .subshellCommand

/-- No leaf was left without a word. -/
def NothingLost (b : Builder) (t : HeapTree) : Prop :=
  ∀ ptr ∈ t.addrs, ptr ≠ b.parseCommand → (b.heap ptr).type ≠ none

namespace Built

theorem start : Built startBuilder (.leaf 0) where
  stored := rfl
  root := rfl
  nodup := by simp [HeapTree.addrs]
  bound := by simp [HeapTree.addrs, startBuilder]
  proper := by simp [HeapTree.addrs, startBuilder, Node.Proper]
  parse_mem := by simp [HeapTree.addrs, startBuilder]
  parse_leaf := .inl rfl
  subshell_isSome := by simp [startBuilder]
  subshell_mem := by simp [startBuilder]

theorem kids_parse (h : Built b t) : b.kids b.parseCommand = .none := by
  rcases h.parse_leaf with hnone | hsimple
  · simp [Builder.kids, Node.kids, hnone]
  · simp [Builder.kids, Node.kids, hsimple]

theorem word (h : Built b t) (content : CString) :
    Built (buildWord content b) t ∧
      (NothingLost (buildWord content b) t ↔ NothingLost b t) ∧
      (buildWord content b).pending = false := by
  obtain ⟨node, heq, htype, hu⟩ : ∃ node, buildWord content b =
      b.write b.parseCommand node ∧ node.type = some .simpleCommand ∧
        ∃ word, node.u = .word word ∧ word ≠ [] := by
    unfold buildWord
    dsimp only
    split
    · rename_i hsimple
      exact ⟨_, rfl, hsimple, _, rfl, by simp⟩
    · exact ⟨_, rfl, rfl, _, rfl, by simp⟩
  rw [heq]
  have hheap : ∀ ptr, ptr ≠ b.parseCommand →
      (b.write b.parseCommand node).heap ptr = b.heap ptr := by
    intro ptr hne
    simp [Builder.write, hne]
  have hnew : (b.write b.parseCommand node).heap b.parseCommand = node := by
    simp [Builder.write]
  have hkids : ∀ ptr, (b.write b.parseCommand node).kids ptr = b.kids ptr := by
    intro ptr
    by_cases hptr : ptr = b.parseCommand
    · rw [hptr, h.kids_parse, Builder.kids, hnew, Node.kids, htype]
    · rw [Builder.kids, hheap ptr hptr, Builder.kids]
  refine ⟨?_, ?_, ?_⟩
  · exact {
      stored := h.stored.congr fun ptr _ => hkids ptr
      root := h.root
      nodup := h.nodup
      bound := h.bound
      proper := by
        intro ptr hmem
        by_cases hptr : ptr = b.parseCommand
        · rw [hptr, hnew, Node.Proper, htype]
          exact hu
        · rw [hheap ptr hptr]
          exact h.proper ptr hmem
      parse_mem := h.parse_mem
      parse_leaf := .inr (by rw [← htype]; exact congrArg Node.type hnew)
      subshell_isSome := h.subshell_isSome
      subshell_mem := by
        intro ptr hptr
        obtain ⟨hmem, hsubshell⟩ := h.subshell_mem ptr hptr
        have hne : ptr ≠ b.parseCommand := by
          rintro rfl
          rcases h.parse_leaf with hleaf | hleaf <;> simp [hleaf] at hsubshell
        exact ⟨hmem, by rw [hheap ptr hne]; exact hsubshell⟩ }
  · refine forall₃_congr fun ptr _ hne => ?_
    rw [hheap ptr hne]
  · have hparse : (b.write b.parseCommand node).parseCommand = b.parseCommand := rfl
    simp [Builder.pending, hparse, hnew, htype]

theorem lbkt (h : Built b t) :
    ∃ t', Built (buildLbkt b) t' ∧
      (NothingLost (buildLbkt b) t' ↔ NothingLost b t) ∧
      (buildLbkt b).pending = true := by
  have hlt := h.bound b.parseCommand h.parse_mem
  have hparse : (buildLbkt b).heap b.parseCommand =
      { b.heap b.parseCommand with
        type := some .subshellCommand, u := .subshellCommand (some b.next) } := by
    simp [buildLbkt, Builder.write, hlt.ne]
  have hbody : (buildLbkt b).heap b.next = { u := .subshellCommand none } := by
    simp [buildLbkt, Builder.write]
  have hother : ∀ ptr ∈ t.addrs, ptr ≠ b.parseCommand →
      (buildLbkt b).heap ptr = b.heap ptr := by
    intro ptr hmem hne
    simp [buildLbkt, Builder.write, hne, (h.bound ptr hmem).ne]
  obtain ⟨t', haddr, hstored, hperm⟩ : ∃ t' : HeapTree, t'.addr = t.addr ∧
      t'.Stored (buildLbkt b).kids ∧ t'.addrs.Perm ([b.next] ++ t.addrs) := by
    refine h.stored.replace h.nodup h.parse_mem ?_ ?_
    · intro ptr hmem hne
      rw [Builder.kids, hother ptr hmem hne, Builder.kids]
    · intro s hs haddr _ _
      cases s with
      | leaf ptr =>
          obtain rfl : ptr = b.parseCommand := haddr
          refine ⟨.one b.parseCommand (.leaf b.next), rfl, ⟨?_, ?_⟩, ?_⟩
          · rw [Builder.kids, hparse]
            rfl
          · rw [HeapTree.Stored, Builder.kids, hbody]
            rfl
          · exact List.Perm.swap _ _ _
      | one ptr body =>
          obtain rfl : ptr = b.parseCommand := haddr
          have hone := hs.1
          simp [h.kids_parse] at hone
      | two ptr left right =>
          obtain rfl : ptr = b.parseCommand := haddr
          have htwo := hs.1
          simp [h.kids_parse] at htwo
  have hmem : ∀ ptr, ptr ∈ t'.addrs ↔ ptr = b.next ∨ ptr ∈ t.addrs := by
    intro ptr
    rw [hperm.mem_iff]
    simp
  refine ⟨t', ?_, ?_, ?_⟩
  · exact {
      stored := hstored
      root := haddr.trans h.root
      nodup := by
        rw [hperm.nodup_iff]
        refine List.nodup_cons.mpr ⟨fun hnew => ?_, h.nodup⟩
        exact absurd (h.bound _ hnew) (lt_irrefl _)
      bound := by
        intro ptr hptr
        rcases (hmem ptr).mp hptr with rfl | hold
        · exact Nat.lt_succ_self _
        · exact Nat.lt_succ_of_lt (h.bound ptr hold)
      proper := by
        intro ptr hptr
        rcases (hmem ptr).mp hptr with rfl | hold
        · rw [hbody]
          trivial
        · by_cases heq : ptr = b.parseCommand
          · rw [heq, hparse]
            exact ⟨b.next, rfl⟩
          · rw [hother ptr hold heq]
            exact h.proper ptr hold
      parse_mem := (hmem b.next).mpr (.inl rfl)
      parse_leaf := .inl (congrArg Node.type hbody)
      subshell_isSome := fun _ => rfl
      subshell_mem := by
        intro ptr hptr
        obtain rfl : b.parseCommand = ptr := Option.some.inj hptr
        exact ⟨(hmem _).mpr (.inr h.parse_mem), congrArg Node.type hparse⟩ }
  · constructor
    · intro hnothing ptr hptr hne
      rw [← hother ptr hptr hne]
      exact hnothing ptr ((hmem ptr).mpr (.inr hptr)) (h.bound ptr hptr).ne
    · intro hnothing ptr hptr hne
      have hold : ptr ∈ t.addrs := ((hmem ptr).mp hptr).resolve_left hne
      by_cases heq : ptr = b.parseCommand
      · rw [heq, hparse]
        simp
      · rw [hother ptr hold heq]
        exact hnothing ptr hold heq
  · exact decide_eq_true (congrArg Node.type hbody)

theorem putAbove_kids_new (c : Builder) (left : Ptr) (operator : Operator) :
    (c.putAbove (some left) operator).kids c.next = .two left (c.next + 1) := by
  simp [Builder.kids, Builder.putAbove, Builder.write, Node.kids]

theorem putAbove_kids_right (c : Builder) (left : Ptr) (operator : Operator) :
    (c.putAbove (some left) operator).kids (c.next + 1) = .none := by
  simp [Builder.kids, Builder.putAbove, Builder.write, Node.kids]

theorem putAbove_kids_of_lt {c : Builder} {ptr : Ptr} (hlt : ptr < c.next)
    (left : Ptr) (operator : Operator) :
    (c.putAbove (some left) operator).kids ptr = c.kids ptr := by
  have hne : ptr ≠ c.next + 1 := (Nat.lt_succ_of_lt hlt).ne
  simp [Builder.kids, Builder.putAbove, Builder.write, hlt.ne, hne]

/-- What the three ways to put an operator node into the tree share. -/
theorem grow (h : Built b t) (c : Builder) (left : Ptr) (operator : Operator)
    (hnext : c.next = b.next) (hinside : c.isSubshell = b.isSubshell)
    (hsubshell : c.subshellRoot = b.subshellRoot)
    (htypes : ∀ ptr ∈ t.addrs, (c.heap ptr).type = (b.heap ptr).type)
    (hproper : ∀ ptr ∈ t.addrs, (c.heap ptr).Proper)
    (hroot : t'.addr = c.commandRoot)
    (hstored : t'.Stored (c.putAbove (some left) operator).kids)
    (hperm : t'.addrs.Perm ([b.next, b.next + 1] ++ t.addrs)) :
    Built (c.putAbove (some left) operator) t' ∧
      (NothingLost (c.putAbove (some left) operator) t' ↔
        NothingLost b t ∧ b.pending = false) ∧
      (c.putAbove (some left) operator).pending = true := by
  set b' := c.putAbove (some left) operator with hb'
  have hparse : b'.parseCommand = b.next + 1 := by rw [← hnext]; rfl
  have hnew : b'.heap b.next =
      { type := some (.operator operator)
        u := .command (some left) (some (b.next + 1)) } := by
    simp [hb', Builder.putAbove, Builder.write, hnext]
  have hright : b'.heap (b.next + 1) = {} := by
    simp [hb', Builder.putAbove, Builder.write, hnext]
  have hother : ∀ ptr ∈ t.addrs, b'.heap ptr = c.heap ptr := by
    intro ptr hptr
    have hlt := h.bound ptr hptr
    have hne : ptr ≠ b.next + 1 := (Nat.lt_succ_of_lt hlt).ne
    simp [hb', Builder.putAbove, Builder.write, hnext, hlt.ne, hne]
  have hmem : ∀ ptr, ptr ∈ t'.addrs ↔
      ptr = b.next ∨ ptr = b.next + 1 ∨ ptr ∈ t.addrs := by
    intro ptr
    rw [hperm.mem_iff]
    simp
  refine ⟨?_, ?_, ?_⟩
  · exact {
      stored := hstored
      root := hroot
      nodup := by
        rw [hperm.nodup_iff]
        refine List.nodup_cons.mpr ⟨?_, List.nodup_cons.mpr ⟨?_, h.nodup⟩⟩
        · intro hnew
          rcases List.mem_cons.mp hnew with heq | hold
          · omega
          · exact absurd (h.bound _ hold) (lt_irrefl _)
        · intro hnew
          have hlt := h.bound _ hnew
          omega
      bound := by
        intro ptr hptr
        have hlimit : b'.next = b.next + 2 := by rw [← hnext]; rfl
        rw [hlimit]
        rcases (hmem ptr).mp hptr with rfl | rfl | hold
        · omega
        · omega
        · exact (h.bound ptr hold).trans (by omega)
      proper := by
        intro ptr hptr
        rcases (hmem ptr).mp hptr with rfl | rfl | hold
        · rw [hnew]
          exact ⟨left, b.next + 1, rfl⟩
        · rw [hright]
          trivial
        · rw [hother ptr hold]
          exact hproper ptr hold
      parse_mem := (hmem _).mpr (.inr (.inl hparse))
      parse_leaf := .inl (by rw [hparse, hright])
      subshell_isSome := by
        intro hin
        have hsome := h.subshell_isSome (hinside ▸ hin)
        rwa [← hsubshell] at hsome
      subshell_mem := by
        intro ptr hptr
        obtain ⟨hold, htype⟩ := h.subshell_mem ptr (hsubshell ▸ hptr)
        refine ⟨(hmem ptr).mpr (.inr (.inr hold)), ?_⟩
        rw [hother ptr hold, htypes ptr hold, htype] }
  · constructor
    · intro hnothing
      have hold : ∀ ptr ∈ t.addrs, (b.heap ptr).type ≠ none := by
        intro ptr hptr
        rw [← htypes ptr hptr, ← hother ptr hptr]
        refine hnothing ptr ((hmem ptr).mpr (.inr (.inr hptr))) ?_
        rw [hparse]
        exact (Nat.lt_succ_of_lt (h.bound ptr hptr)).ne
      exact ⟨fun ptr hptr _ => hold ptr hptr,
        decide_eq_false (hold _ h.parse_mem)⟩
    · rintro ⟨hnothing, hpending⟩ ptr hptr hne
      rcases (hmem ptr).mp hptr with rfl | rfl | hold
      · simp [hnew]
      · exact absurd hparse.symm hne
      · rw [hother ptr hold, htypes ptr hold]
        by_cases heq : ptr = b.parseCommand
        · rw [heq]
          exact of_decide_eq_false hpending
        · exact hnothing ptr hold heq
  · simp [Builder.pending, hparse, hright]

theorem top (h : Built b t) : ∃ top ∈ t.addrs, b.top = some top := by
  unfold Builder.top
  split
  · rename_i hinside
    obtain ⟨root, hroot⟩ := Option.isSome_iff_exists.mp (h.subshell_isSome hinside)
    obtain ⟨hmem, htype⟩ := h.subshell_mem root hroot
    have hproper := h.proper root hmem
    simp only [Node.Proper, htype] at hproper
    obtain ⟨body, hbody⟩ := hproper
    refine ⟨body, h.stored.body_mem hmem ?_, ?_⟩
    · simp [Builder.kids, Node.kids, htype, hbody]
    · simp [hroot, hbody, Members.body]
  · exact ⟨b.commandRoot, h.root ▸ t.addr_mem, rfl⟩

/-- The operator takes the place of the right child of the top node. -/
theorem operatorBelow (h : Built b t) {top : Ptr} (hmem : top ∈ t.addrs)
    {topOperator : Operator}
    (htype : (b.heap top).type = some (.operator topOperator))
    (operator : Operator) :
    ∃ left t', (b.heap top).u.second = some left ∧
      let b' := (b.write top { b.heap top with
        u := (b.heap top).u.setSecond (some b.next) }).putAbove (some left) operator
      Built b' t' ∧ (NothingLost b' t' ↔ NothingLost b t ∧ b.pending = false) ∧
        b'.pending = true := by
  have hproper := h.proper top hmem
  simp only [Node.Proper, htype] at hproper
  obtain ⟨first, second, hu⟩ := hproper
  have hkids : b.kids top = .two first second := by
    simp [Builder.kids, Node.kids, htype, hu]
  set c := b.write top { b.heap top with
    u := (b.heap top).u.setSecond (some b.next) } with hc
  have htop : c.heap top = { b.heap top with
      u := .command (some first) (some b.next) } := by
    simp [hc, Builder.write, hu, Members.setSecond]
  have hother : ∀ ptr, ptr ≠ top → c.heap ptr = b.heap ptr := by
    intro ptr hne
    simp [hc, Builder.write, hne]
  obtain ⟨t', haddr, hstored, hperm⟩ : ∃ t' : HeapTree, t'.addr = t.addr ∧
      t'.Stored (c.putAbove (some second) operator).kids ∧
        t'.addrs.Perm ([b.next, b.next + 1] ++ t.addrs) := by
    refine h.stored.replace h.nodup hmem ?_ ?_
    · intro ptr hptr hne
      rw [putAbove_kids_of_lt (c := c) (h.bound ptr hptr), Builder.kids,
        hother ptr hne, Builder.kids]
    · intro s hs haddr hnodup hsame
      have hroot := hs
      cases s with
      | leaf ptr =>
          obtain rfl : ptr = top := haddr
          simp [HeapTree.Stored, hkids] at hs
      | one ptr body =>
          obtain rfl : ptr = top := haddr
          simp [HeapTree.Stored, hkids] at hs
      | two ptr leftTree rightTree =>
          obtain rfl : ptr = top := haddr
          obtain ⟨hchildren, hleft, hright⟩ := hs
          rw [hkids] at hchildren
          obtain ⟨rfl, rfl⟩ := Kids.two.inj hchildren
          have hnot : ∀ q ∈ leftTree.addrs ++ rightTree.addrs, q ≠ ptr := by
            rintro q hq rfl
            exact (List.nodup_cons.mp hnodup).1 hq
          refine ⟨.two ptr leftTree (.two b.next rightTree (.leaf (b.next + 1))),
            rfl, ⟨?_, ?_, ?_, ?_, ?_⟩, ?_⟩
          · rw [putAbove_kids_of_lt (c := c) (h.bound ptr hmem), Builder.kids, htop]
            simp [Node.kids, htype, HeapTree.addr]
          · exact hleft.congr fun q hq => hsame q (by simp [HeapTree.addrs, hq])
              (hnot q (by simp [hq]))
          · exact putAbove_kids_new c _ operator
          · exact hright.congr fun q hq => hsame q (by simp [HeapTree.addrs, hq])
              (hnot q (by simp [hq]))
          · exact putAbove_kids_right c _ operator
          · refine List.perm_iff_count.mpr fun q => ?_
            simp only [HeapTree.addrs, List.count_append, List.count_cons,
              List.count_nil]
            omega
  refine ⟨second, t', by rw [hu]; rfl, ?_⟩
  refine h.grow c second operator rfl rfl rfl ?_ ?_ (haddr.trans h.root) hstored
    hperm
  · intro ptr _
    by_cases hptr : ptr = top
    · rw [hptr, htop]
    · rw [hother ptr hptr]
  · intro ptr hptr
    by_cases heq : ptr = top
    · rw [heq, htop, Node.Proper, htype]
      exact ⟨first, b.next, rfl⟩
    · rw [hother ptr heq]
      exact h.proper ptr hptr

/-- The operator takes the place of the top node. -/
theorem operatorAbove (h : Built b t) {top : Ptr} (htop : b.top = some top)
    (operator : Operator) :
    ∃ t', let b' := (b.setTop b.next).putAbove (some top) operator
      Built b' t' ∧ (NothingLost b' t' ↔ NothingLost b t ∧ b.pending = false) ∧
        b'.pending = true := by
  cases hinside : b.isSubshell with
  | false =>
      have hset : b.setTop b.next = { b with commandRoot := b.next } := by
        simp [Builder.setTop, hinside]
      obtain rfl : b.commandRoot = top := by
        simpa [Builder.top, hinside] using htop
      rw [hset]
      refine ⟨.two b.next t (.leaf (b.next + 1)),
        h.grow { b with commandRoot := b.next } b.commandRoot operator rfl rfl rfl
          (fun _ _ => rfl) h.proper rfl ⟨?_, ?_, ?_⟩ ?_⟩
      · rw [h.root]
        exact putAbove_kids_new { b with commandRoot := b.next } _ operator
      · exact h.stored.congr fun ptr hptr => putAbove_kids_of_lt
          (c := { b with commandRoot := b.next }) (h.bound ptr hptr) _ operator
      · exact putAbove_kids_right { b with commandRoot := b.next } _ operator
      · refine List.perm_iff_count.mpr fun q => ?_
        simp only [HeapTree.addrs, List.count_append, List.count_cons,
          List.count_nil]
        omega
  | true =>
      obtain ⟨root, hroot⟩ :=
        Option.isSome_iff_exists.mp (h.subshell_isSome hinside)
      obtain ⟨hmem, htype⟩ := h.subshell_mem root hroot
      have hbody : (b.heap root).u.body = some top := by
        simpa [Builder.top, hinside, hroot] using htop
      have hu : (b.heap root).u = .subshellCommand (some top) := by
        cases hcase : (b.heap root).u <;> simp_all [Members.body]
      have hkids : b.kids root = .one top := by
        simp [Builder.kids, Node.kids, htype, hu]
      have hset : b.setTop b.next = b.write root
          { b.heap root with u := .subshellCommand (some b.next) } := by
        simp [Builder.setTop, hinside, hroot]
      rw [hset]
      set c := b.write root
        { b.heap root with u := .subshellCommand (some b.next) } with hc
      have hchanged : c.heap root =
          { b.heap root with u := .subshellCommand (some b.next) } := by
        simp [hc, Builder.write]
      have hother : ∀ ptr, ptr ≠ root → c.heap ptr = b.heap ptr := by
        intro ptr hne
        simp [hc, Builder.write, hne]
      obtain ⟨t', haddr, hstored, hperm⟩ : ∃ t' : HeapTree, t'.addr = t.addr ∧
          t'.Stored (c.putAbove (some top) operator).kids ∧
            t'.addrs.Perm ([b.next, b.next + 1] ++ t.addrs) := by
        refine h.stored.replace h.nodup hmem ?_ ?_
        · intro ptr hptr hne
          rw [putAbove_kids_of_lt (c := c) (h.bound ptr hptr), Builder.kids,
            hother ptr hne, Builder.kids]
        · intro s hs haddr hnodup hsame
          cases s with
          | leaf ptr =>
              obtain rfl : ptr = root := haddr
              simp [HeapTree.Stored, hkids] at hs
          | two ptr leftTree rightTree =>
              obtain rfl : ptr = root := haddr
              simp [HeapTree.Stored, hkids] at hs
          | one ptr body =>
              obtain rfl : ptr = root := haddr
              obtain ⟨hchild, hstored⟩ := hs
              rw [hkids] at hchild
              obtain rfl := Kids.one.inj hchild
              have hnot : ∀ q ∈ body.addrs, q ≠ ptr := by
                rintro q hq rfl
                exact (List.nodup_cons.mp hnodup).1 hq
              refine ⟨.one ptr (.two b.next body (.leaf (b.next + 1))), rfl,
                ⟨?_, ?_, ?_, ?_⟩, ?_⟩
              · rw [putAbove_kids_of_lt (c := c) (h.bound ptr hmem), Builder.kids,
                  hchanged]
                simp [Node.kids, htype, HeapTree.addr]
              · exact putAbove_kids_new c _ operator
              · exact hstored.congr fun q hq =>
                  hsame q (by simp [HeapTree.addrs, hq]) (hnot q hq)
              · exact putAbove_kids_right c _ operator
              · refine List.perm_iff_count.mpr fun q => ?_
                simp only [HeapTree.addrs, List.count_append, List.count_cons,
                  List.count_nil]
                omega
      refine ⟨t', h.grow c top operator rfl rfl rfl ?_ ?_ (haddr.trans h.root)
        hstored hperm⟩
      · intro ptr _
        by_cases hptr : ptr = root
        · rw [hptr, hchanged]
        · rw [hother ptr hptr]
      · intro ptr hptr
        by_cases heq : ptr = root
        · rw [heq, hchanged, Node.Proper, htype]
          exact ⟨b.next, rfl⟩
        · rw [hother ptr heq]
          exact h.proper ptr hptr

theorem operator (h : Built b t) (below : Operator → Bool)
    (operator : Operator) :
    ∃ b' t', buildOperator below operator b = some b' ∧ Built b' t' ∧
      (NothingLost b' t' ↔ NothingLost b t ∧ b.pending = false) ∧
        b'.pending = true := by
  obtain ⟨top, hmem, htop⟩ := h.top
  rcases below_or_above below (b.heap top) with ⟨topOperator, htype, hbelow⟩ | hnot
  · obtain ⟨left, t', hleft, hbuilt⟩ := h.operatorBelow hmem htype operator
    rw [buildOperator_below htop htype hbelow, hleft]
    exact ⟨_, t', rfl, hbuilt⟩
  · obtain ⟨t', hbuilt⟩ := h.operatorAbove htop operator
    rw [buildOperator_above htop hnot]
    exact ⟨_, t', rfl, hbuilt⟩

theorem operator_subshellRoot {below : Operator → Bool} {operator : Operator}
    (heq : buildOperator below operator b = some b') :
    b'.subshellRoot = b.subshellRoot := by
  obtain ⟨top, -, rfl⟩ := Option.map_eq_some_iff.mp heq
  have hset : (b.setTop b.next).subshellRoot = b.subshellRoot := by
    unfold Builder.setTop
    split
    · split <;> rfl
    · rfl
  dsimp only
  split
  · split
    · rfl
    · exact hset
  · exact hset

theorem rbkt (h : Built b t) : Built { b with isSubshell := false } t :=
  { h with subshell_isSome := by simp }

/-- A redirection changes no type and no pointer. -/
theorem redirection (h : Built b t) {previous token : TokenType}
    {content : CString} (heq : buildRedirection previous token content b = some b') :
    Built b' t ∧ (NothingLost b' t ↔ NothingLost b t) ∧ b'.pending = b.pending ∧
      b'.subshellRoot = b.subshellRoot := by
  obtain ⟨ptr, -, rfl⟩ := Option.map_eq_some_iff.mp heq
  set b' := b.write ptr (setRedirection token content (b.heap ptr)) with hb'
  have hset : ∀ node, (setRedirection token content node).type = node.type ∧
      (setRedirection token content node).u = node.u := by
    intro node
    unfold setRedirection
    split <;> exact ⟨rfl, rfl⟩
  have htypes : ∀ q, (b'.heap q).type = (b.heap q).type := by
    intro q
    by_cases hq : q = ptr
    · simp [hb', Builder.write, hq, (hset _).1]
    · simp [hb', Builder.write, hq]
  have hmembers : ∀ q, (b'.heap q).u = (b.heap q).u := by
    intro q
    by_cases hq : q = ptr
    · simp [hb', Builder.write, hq, (hset _).2]
    · simp [hb', Builder.write, hq]
  refine ⟨?_, ?_, ?_, rfl⟩
  · exact {
      stored := h.stored.congr fun q _ => by
        rw [Builder.kids, Node.kids, htypes, hmembers, Builder.kids, Node.kids]
      root := h.root
      nodup := h.nodup
      bound := h.bound
      proper := by
        intro q hq
        rw [Node.Proper, htypes, hmembers]
        exact h.proper q hq
      parse_mem := h.parse_mem
      parse_leaf := by
        rw [htypes]
        exact h.parse_leaf
      subshell_isSome := h.subshell_isSome
      subshell_mem := by
        intro q hq
        rw [htypes]
        exact h.subshell_mem q hq }
  · refine forall₃_congr fun q _ _ => ?_
    rw [htypes]
  · rw [Builder.pending, htypes]
    rfl

end Built

/-! ## The tokens of a command -/

def TokenType.separates (token : TokenType) : Bool :=
  token = .pipeline || token = .and || token = .or || token = .semicolon

/-- Whether a word is still due after a token. -/
def TokenType.pendingAfter (token : TokenType) (pending : Bool) : Bool :=
  if token = .word then false
  else if token = .lbkt || token.separates then true
  else pending

/--
Every operator and the end have a word between them and the last operator or
`(` before them; the operands of redirections do not count.
-/
def completeFrom : Bool → List Token → Bool
  | pending, [] => !pending
  | pending, cell :: cells =>
      if cell.token.isRedirection then
        match cells with
        | [] => !pending
        | _ :: cells => completeFrom pending cells
      else (!cell.token.separates || !pending) &&
        completeFrom (cell.token.pendingAfter pending) cells

/--
The operands are words, and a redirection after `)` comes after some `(`.
-/
def readableFrom : Bool → TokenType → List Token → Bool
  | _, _, [] => true
  | opened, previous, cell :: cells =>
      if cell.token.isRedirection then
        match cells with
        | [] => false
        | operand :: cells =>
            operand.content.isSome && (previous ≠ .rbkt || opened) &&
              readableFrom opened operand.token cells
      else (cell.token ≠ .word || cell.content.isSome) &&
        readableFrom (opened || cell.token = .lbkt) cell.token cells

theorem buildTokens_of_plain (hplain : cell.token.isRedirection = false)
    (previous : TokenType) (cells : List Token) (b : Builder) :
    buildTokens previous (cell :: cells) b =
      (buildToken cell b).bind (buildTokens cell.token cells) := by
  cases cells <;> simp [buildTokens, hplain]

theorem completeFrom_of_plain (hplain : cell.token.isRedirection = false)
    (pending : Bool) (cells : List Token) :
    completeFrom pending (cell :: cells) =
      ((!cell.token.separates || !pending) &&
        completeFrom (cell.token.pendingAfter pending) cells) := by
  cases cells <;> simp [completeFrom, hplain]

theorem readableFrom_of_plain (hplain : cell.token.isRedirection = false)
    (opened : Bool) (previous : TokenType) (cells : List Token) :
    readableFrom opened previous (cell :: cells) =
      ((cell.token ≠ .word || cell.content.isSome) &&
        readableFrom (opened || cell.token = .lbkt) cell.token cells) := by
  cases cells <;> simp [readableFrom, hplain]

theorem Built.buildToken_isSome (h : Built b t)
    (hplain : cell.token.isRedirection = false) :
    (buildToken cell b).isSome = (cell.token ≠ .word || cell.content.isSome) := by
  have hoperator : ∀ below operator,
      (buildOperator below operator b).isSome = true := by
    intro below operator
    obtain ⟨b', -, hsome, -⟩ := h.operator below operator
    rw [hsome]
    rfl
  cases htoken : cell.token <;>
    simp_all [buildToken, buildPipeline, buildAnd, buildOr, buildSemicolon,
      TokenType.isRedirection]

theorem Built.ofOperator (h : Built b t) {below : Operator → Bool}
    {operator : Operator} (heq : buildOperator below operator b = some b') :
    ∃ t', Built b' t' ∧ (NothingLost b' t' ↔ NothingLost b t ∧ b.pending = false) ∧
      b'.pending = true ∧ b'.subshellRoot.isSome = (b.subshellRoot.isSome || false) := by
  obtain ⟨b'', t', hsome, hbuilt, hlost, hpending⟩ := h.operator below operator
  obtain rfl : b'' = b' := Option.some.inj (hsome.symm.trans heq)
  exact ⟨t', hbuilt, hlost, hpending, by
    rw [Built.operator_subshellRoot heq, Bool.or_false]⟩

theorem Built.token (h : Built b t) (heq : buildToken cell b = some b')
    (hplain : cell.token.isRedirection = false) :
    ∃ t', Built b' t' ∧
      (NothingLost b' t' ↔
        NothingLost b t ∧ (!cell.token.separates || !b.pending) = true) ∧
      b'.pending = cell.token.pendingAfter b.pending ∧
      b'.subshellRoot.isSome = (b.subshellRoot.isSome || cell.token = .lbkt) := by
  cases htoken : cell.token with
  | word =>
      simp only [buildToken, htoken] at heq
      obtain ⟨content, -, rfl⟩ := Option.map_eq_some_iff.mp heq
      obtain ⟨hbuilt, hlost, hpending⟩ := h.word content
      have hroot : (buildWord content b).subshellRoot = b.subshellRoot := by
        unfold buildWord
        dsimp only
        split <;> rfl
      exact ⟨t, hbuilt, by simpa [TokenType.separates] using hlost, hpending,
        by simp [hroot]⟩
  | lbkt =>
      simp only [buildToken, htoken, Option.some.injEq] at heq
      obtain ⟨t', hbuilt, hlost, hpending⟩ := h.lbkt
      exact heq ▸ ⟨t', hbuilt, by simpa [TokenType.separates] using hlost, hpending,
        by simp [buildLbkt]⟩
  | rbkt =>
      simp only [buildToken, htoken, Option.some.injEq] at heq
      exact heq ▸ ⟨t, h.rbkt, by simp [TokenType.separates, NothingLost], rfl,
        by simp⟩
  | pipeline | and | or | semicolon =>
      simp only [buildToken, htoken, buildPipeline, buildAnd, buildOr,
        buildSemicolon] at heq
      simpa [TokenType.separates, TokenType.pendingAfter] using h.ofOperator heq
  | input | output => simp [htoken, TokenType.isRedirection] at hplain
  | null | halfAnd | endCmd | halfEndCmd =>
      simp only [buildToken, htoken, Option.some.injEq] at heq
      exact heq ▸ ⟨t, h, by simp [TokenType.separates], rfl, by simp⟩

theorem buildRedirection_isSome (previous token : TokenType) (content : CString)
    (b : Builder) :
    (buildRedirection previous token content b).isSome =
      (previous ≠ .rbkt || b.subshellRoot.isSome) := by
  unfold buildRedirection
  by_cases hrbkt : previous = .rbkt <;> simp [hrbkt]

theorem Built.tokens (pending : Bool) (cells : List Token) (h : Built b t)
    (hpending : b.pending = pending) (previous : TokenType) :
    (buildTokens previous cells b).isSome =
      readableFrom b.subshellRoot.isSome previous cells ∧
    ∀ b', buildTokens previous cells b = some b' →
      ∃ t', Built b' t' ∧ ((NothingLost b' t' ∧ b'.pending = false) ↔
        (NothingLost b t ∧ completeFrom pending cells = true)) := by
  induction pending, cells using completeFrom.induct generalizing b t previous with
  | case1 pending =>
      refine ⟨rfl, ?_⟩
      intro b' heq
      obtain rfl := Option.some.inj heq
      exact ⟨t, h, by simp [completeFrom, hpending]⟩
  | case2 pending cell hredirects =>
      simp [buildTokens, readableFrom, hredirects]
  | case3 pending cell hredirects operand cells ih =>
      simp only [buildTokens, readableFrom, completeFrom, hredirects, if_true]
      cases hcontent : operand.content with
      | none => simp
      | some content =>
          simp only [Option.bind_some, Option.isSome_some, Bool.true_and]
          have hexists := buildRedirection_isSome previous cell.token content b
          cases hbuild : buildRedirection previous cell.token content b with
          | none =>
              rw [hbuild] at hexists
              simp only [← hexists]
              simp
          | some b1 =>
              obtain ⟨hbuilt, hlost, hsame, hroot⟩ := h.redirection hbuild
              obtain ⟨hsome, hresult⟩ :=
                ih hbuilt (hsame.trans hpending) operand.token
              refine ⟨?_, ?_⟩
              · rw [hbuild] at hexists
                rw [Option.bind_some, hsome, hroot, ← hexists]
                rfl
              · intro b' heq
                rw [← hlost]
                exact hresult b' heq
  | case4 pending cell cells hplain ih =>
      have hplain' : cell.token.isRedirection = false := by simpa using hplain
      have hexists := h.buildToken_isSome hplain'
      rw [buildTokens_of_plain hplain', readableFrom_of_plain hplain',
        completeFrom_of_plain hplain']
      cases hbuild : buildToken cell b with
      | none =>
          rw [hbuild] at hexists
          rw [← hexists]
          simp
      | some b1 =>
          obtain ⟨t1, hbuilt, hlost, hnext, hroot⟩ := h.token hbuild hplain'
          obtain ⟨hsome, hresult⟩ :=
            ih hbuilt (by rw [hnext, hpending]) cell.token
          refine ⟨?_, ?_⟩
          · rw [hbuild] at hexists
            rw [Option.bind_some, hsome, hroot, ← hexists]
            rfl
          · intro b' heq
            obtain ⟨t', hbuilt', hiff⟩ := hresult b' heq
            refine ⟨t', hbuilt', ?_⟩
            rw [hiff, hlost, hpending, Bool.and_eq_true, and_assoc]

/-! ## The tree that is returned -/

theorem Node.kids_eq_one {node : Node} {body : Ptr} :
    node.kids = .one body ↔ node.type = some .subshellCommand ∧
      node.u = .subshellCommand (some body) := by
  unfold Node.kids
  constructor
  · intro h
    split at h
    · cases h
    · rename_i htype hu
      exact ⟨htype, hu.trans (by rw [Kids.one.inj h])⟩
    · cases h
  · rintro ⟨htype, hu⟩
    rw [htype, hu]

theorem Node.kids_eq_two {node : Node} {first second : Ptr} :
    node.kids = .two first second ↔
      ∃ operator, node.type = some (.operator operator) ∧
        node.u = .command (some first) (some second) := by
  unfold Node.kids
  constructor
  · intro h
    split at h
    · rename_i operator _ _ htype hu
      obtain ⟨hfirst, hsecond⟩ := Kids.two.inj h
      exact ⟨operator, htype, hu.trans (by rw [hfirst, hsecond])⟩
    · cases h
    · cases h
  · rintro ⟨operator, htype, hu⟩
    rw [htype, hu]

theorem stores_iff {heap : Ptr → Node} (hstored : t.Stored fun ptr => (heap ptr).kids)
    (hproper : ∀ ptr ∈ t.addrs, (heap ptr).Proper) :
    (∃ command, Stores heap t.addr command) ↔
      ∀ ptr ∈ t.addrs, (heap ptr).type ≠ none := by
  induction t with
  | leaf a =>
      have hkids : (heap a).kids = .none := hstored
      have ha : (heap a).Proper := hproper a (by simp [HeapTree.addrs])
      simp only [HeapTree.addrs, HeapTree.addr, List.mem_singleton, forall_eq]
      constructor
      · rintro ⟨command, hcommand⟩ hnone
        cases command <;> simp [Stores, hnone] at hcommand
      · intro hsome
        cases htype : (heap a).type with
        | none => exact absurd htype hsome
        | some type =>
            cases type with
            | simpleCommand =>
                obtain ⟨word, hu, hne⟩ : ∃ word, (heap a).u = .word word ∧
                    word ≠ [] := by simpa [Node.Proper, htype] using ha
                exact ⟨.simple (heap a).redirections word, htype, rfl, hu, hne⟩
            | operator operator =>
                obtain ⟨first, second, hu⟩ : ∃ first second,
                    (heap a).u = .command (some first) (some second) := by
                  simpa [Node.Proper, htype] using ha
                simp [Node.kids, htype, hu] at hkids
            | subshellCommand =>
                obtain ⟨body, hu⟩ : ∃ body,
                    (heap a).u = .subshellCommand (some body) := by
                  simpa [Node.Proper, htype] using ha
                simp [Node.kids, htype, hu] at hkids
  | one a body ih =>
      obtain ⟨hkids, hbody⟩ := hstored
      obtain ⟨htype, hu⟩ := Node.kids_eq_one.mp hkids
      have hsub := ih hbody fun ptr hptr =>
        hproper ptr (by simp [HeapTree.addrs, hptr])
      simp only [HeapTree.addrs, HeapTree.addr, List.forall_mem_cons, ← hsub]
      constructor
      · rintro ⟨command, hcommand⟩
        refine ⟨by simp [htype], ?_⟩
        cases command with
        | binary | simple => simp [Stores, htype] at hcommand
        | subshell redirections inner =>
            obtain ⟨-, -, first, hfirst, hinner⟩ := hcommand
            obtain rfl : body.addr = first := by simpa [hu] using hfirst
            exact ⟨inner, hinner⟩
      · rintro ⟨-, inner, hinner⟩
        exact ⟨.subshell (heap a).redirections inner, htype, rfl, body.addr, hu,
          hinner⟩
  | two a left right ihLeft ihRight =>
      obtain ⟨hkids, hleft, hright⟩ := hstored
      obtain ⟨operator, htype, hu⟩ := Node.kids_eq_two.mp hkids
      have hsubLeft := ihLeft hleft fun ptr hptr =>
        hproper ptr (by simp [HeapTree.addrs, hptr])
      have hsubRight := ihRight hright fun ptr hptr =>
        hproper ptr (by simp [HeapTree.addrs, hptr])
      simp only [HeapTree.addrs, HeapTree.addr, List.forall_mem_cons,
        List.forall_mem_append, ← hsubLeft, ← hsubRight]
      constructor
      · rintro ⟨command, hcommand⟩
        refine ⟨by simp [htype], ?_⟩
        cases command with
        | simple | subshell => simp [Stores, htype] at hcommand
        | binary type redirections l r =>
            obtain ⟨-, -, first, second, hchildren, hl, hr⟩ := hcommand
            rw [hu] at hchildren
            simp only [Members.command.injEq, Option.some.injEq] at hchildren
            obtain ⟨rfl, rfl⟩ := hchildren
            exact ⟨⟨l, hl⟩, r, hr⟩
      · rintro ⟨-, ⟨l, hl⟩, r, hr⟩
        exact ⟨.binary operator (heap a).redirections l r, htype, rfl, left.addr,
          right.addr, hu, hl, hr⟩

theorem Built.wellFormed_iff (h : Built b t) :
    Parsed.WellFormed ⟨b.heap, b.commandRoot⟩ ↔
      NothingLost b t ∧ b.pending = false := by
  rw [Parsed.WellFormed, ← h.root, stores_iff h.stored h.proper]
  constructor
  · intro hall
    exact ⟨fun ptr hptr _ => hall ptr hptr,
      decide_eq_false (hall _ h.parse_mem)⟩
  · rintro ⟨hnothing, hpending⟩ ptr hptr
    by_cases hparse : ptr = b.parseCommand
    · rw [hparse]
      exact of_decide_eq_false hpending
    · exact hnothing ptr hptr hparse

end Cs111Labs.Shell
