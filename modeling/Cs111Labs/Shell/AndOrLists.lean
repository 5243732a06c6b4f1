import Cs111Labs.Shell.ReadCommands

/-!
# And-or lists

The tree of a command without `;` and parentheses.  Where an operator goes is
decided by the type of the root alone; what carries the proof is the way from
the root down to `parse_command`, with the finished trees on its left.
-/

namespace Cs111Labs.Shell

variable {b : Builder} {heap heap' : Nat → Node} {lo root leaf : Nat}

/-! ## Texts and their trees -/

/-- What follows the first word of a simple command. -/
inductive Part where
  | word (content : CString)
  | input (file : CString)
  | output (file : CString)
  deriving DecidableEq, Repr

namespace Part

def tokens : Part → List Token
  | word content => [⟨.word, some content⟩]
  | input file => [⟨.input, none⟩, ⟨.word, some file⟩]
  | output file => [⟨.output, none⟩, ⟨.word, some file⟩]

def word? : Part → Option CString
  | word content => some content
  | _ => none

def input? : Part → Option CString
  | input file => some file
  | _ => none

def output? : Part → Option CString
  | output file => some file
  | _ => none

end Part

structure SimpleText where
  first : CString
  parts : List Part

/-- The last of several redirections of one kind holds. -/
def SimpleText.command (s : SimpleText) : Command :=
  .simple ⟨(s.parts.filterMap Part.input?).getLast?,
      (s.parts.filterMap Part.output?).getLast?⟩
    (s.first :: s.parts.filterMap Part.word?)

def SimpleText.tokens (s : SimpleText) : List Token :=
  ⟨.word, some s.first⟩ :: s.parts.flatMap Part.tokens

structure PipelineText where
  first : SimpleText
  rest : List SimpleText

def PipelineText.command (p : PipelineText) : Command :=
  p.rest.foldl (fun left s => .binary .pipeCommand {} left s.command)
    p.first.command

def PipelineText.tokens (p : PipelineText) : List Token :=
  p.first.tokens ++ p.rest.flatMap fun s => ⟨.pipeline, none⟩ :: s.tokens

inductive Connective where
  | and
  | or
  deriving DecidableEq, Repr

def Connective.operator : Connective → Operator
  | and => .andCommand
  | or => .orCommand

def Connective.token : Connective → TokenType
  | and => .and
  | or => .or

structure AndOrText where
  first : PipelineText
  rest : List (Connective × PipelineText)

def AndOrText.command (a : AndOrText) : Command :=
  a.rest.foldl (fun left (c, p) => .binary c.operator {} left p.command)
    a.first.command

def AndOrText.tokens (a : AndOrText) : List Token :=
  a.first.tokens ++ a.rest.flatMap fun (c, p) => ⟨c.token, none⟩ :: p.tokens

/-- `a b<c>d` -/
example : SimpleText.command ⟨[97], [.word [98], .input [99], .output [100]]⟩ =
    .simple ⟨some [99], some [100]⟩ [[97], [98]] := rfl

/-- The node of a simple command -/
def SimpleText.node (s : SimpleText) : Node where
  type := some .simpleCommand
  input := (s.parts.filterMap Part.input?).getLast?
  output := (s.parts.filterMap Part.output?).getLast?
  u := .word (s.first :: s.parts.filterMap Part.word?)

/-! ## Trees in a range of nodes -/

/-- The tree stays as it is as long as the nodes in `s` do. -/
def Kept (heap : Nat → Node) (s : Set Nat) (ptr : Nat) (c : Command) : Prop :=
  ∀ heap', (∀ a ∈ s, heap' a = heap a) → Stores heap' ptr c

theorem Kept.stores {s : Set Nat} {ptr : Nat} {c : Command}
    (h : Kept heap s ptr c) : Stores heap ptr c :=
  h heap fun _ _ => rfl

theorem Kept.congr {s : Set Nat} {ptr : Nat} {c : Command}
    (h : Kept heap s ptr c) (hsame : ∀ a ∈ s, heap' a = heap a) :
    Kept heap' s ptr c := by
  intro heap'' hsame'
  apply h
  intro a ha
  rw [hsame' a ha, hsame a ha]

theorem Kept.mono {s s' : Set Nat} {ptr : Nat} {c : Command}
    (h : Kept heap s ptr c) (hsub : s ⊆ s') : Kept heap s' ptr c :=
  fun heap' hsame => h heap' fun a ha => hsame a (hsub ha)

theorem kept_simple {node : Node} {word : List CString} {ptr : Nat}
    (hnode : heap ptr = node) (htype : node.type = some .simpleCommand)
    (hu : node.u = .word word) (hne : word ≠ []) :
    Kept heap {ptr} ptr (.simple node.redirections word) := by
  intro heap' hsame
  have heq : heap' ptr = node := (hsame ptr rfl).trans hnode
  exact ⟨by rw [heq]; exact htype, by rw [heq], by rw [heq]; exact hu, hne⟩

/-! ## The way to `parse_command` -/

/-- An operator with its left operand. -/
abbrev Spine := List (Operator × Command)

def plug : Spine → Command → Command
  | [], c => c
  | (operator, left) :: spine, c => .binary operator {} left (plug spine c)

/-- From `root` on, the second children lead to `leaf`.  Nodes are allocated in
this order: the left operand, the operator, and what is below its right. -/
def Descends (heap : Nat → Node) : Nat → Nat → Spine → Nat → Prop
  | lo, root, [], leaf => lo ≤ root ∧ root = leaf
  | lo, root, (operator, left) :: spine, leaf =>
      lo ≤ root ∧ ∃ first second,
        heap root = { type := some (.operator operator),
                      u := .command (some first) (some second) } ∧
        Kept heap (Set.Ico lo root) first left ∧
        Descends heap (root + 1) second spine leaf

theorem Descends.le {spine : Spine}
    (h : Descends heap lo root spine leaf) : lo ≤ root ∧ root ≤ leaf := by
  induction spine generalizing lo root with
  | nil => exact ⟨h.1, h.2.le⟩
  | cons entry spine ih =>
      obtain ⟨hlo, first, second, -, -, hrest⟩ := h
      have hsecond := ih hrest
      exact ⟨hlo, by omega⟩

theorem Descends.congr_of_mem {spine : Spine}
    (h : Descends heap lo root spine leaf)
    (hsame : ∀ a, lo ≤ a → a < leaf → heap' a = heap a) :
    Descends heap' lo root spine leaf := by
  induction spine generalizing lo root with
  | nil => exact h
  | cons entry spine ih =>
      obtain ⟨hlo, first, second, hroot, hleft, hrest⟩ := h
      have hle := hrest.le
      refine ⟨hlo, first, second, ?_, ?_, ih hrest fun a ha => hsame a (by omega)⟩
      · rw [hsame root hlo (by omega), hroot]
      · apply hleft.congr
        intro a ha
        exact hsame a ha.1 (by have := ha.2; omega)

theorem Descends.congr {spine : Spine}
    (h : Descends heap lo root spine leaf)
    (hsame : ∀ a < leaf, heap' a = heap a) :
    Descends heap' lo root spine leaf :=
  h.congr_of_mem fun a _ => hsame a

/-- The whole tree, with any command stored at `leaf`. -/
theorem Descends.stores {spine : Spine} {c : Command}
    (h : Descends heap lo root spine leaf) (hleaf : Stores heap leaf c) :
    Stores heap root (plug spine c) := by
  induction spine generalizing lo root with
  | nil =>
      obtain ⟨-, rfl⟩ := h
      exact hleaf
  | cons entry spine ih =>
      obtain ⟨-, first, second, hroot, hleft, hrest⟩ := h
      exact ⟨by rw [hroot], by rw [hroot]; rfl, first, second, by rw [hroot],
        hleft.stores, ih hrest⟩

/-- With a command at `leaf` the nodes from `root` on hold the whole tree. -/
theorem Descends.close {spine : Spine} {c : Command}
    (h : Descends heap lo root spine leaf) (hleaf : Kept heap {leaf} leaf c) :
    Kept heap (Set.Ico lo (leaf + 1)) root (plug spine c) := by
  induction spine generalizing lo root with
  | nil =>
      obtain ⟨hlo, rfl⟩ := h
      apply hleaf.mono
      intro a ha
      obtain rfl : a = root := ha
      exact ⟨hlo, Nat.lt_succ_self _⟩
  | cons entry spine ih =>
      obtain ⟨hlo, first, second, hroot, hleft, hrest⟩ := h
      have hle := hrest.le
      have hright := ih hrest
      intro heap' hsame
      have hnode : heap' root = heap root :=
        hsame root ⟨hlo, by omega⟩
      refine ⟨by rw [hnode, hroot], by rw [hnode, hroot]; rfl, first, second,
        by rw [hnode, hroot], ?_, ?_⟩
      · apply hleft
        intro a ha
        exact hsame a ⟨ha.1, by have := ha.2; omega⟩
      · apply hright
        intro a ha
        exact hsame a ⟨by have := ha.1; omega, ha.2⟩

/-! ## Where operators go -/

/-- Operators go above `root`: below the subshell whose body is open, or above
everything if it is `none`. -/
def Builder.Tops (b : Builder) : Option Ptr → Ptr → Prop
  | none, root => b.isSubshell = false ∧ b.commandRoot = root
  | some sub, root => b.isSubshell = true ∧ b.subshellRoot = some sub ∧
      b.heap sub = { type := some .subshellCommand, u := .subshellCommand (some root) }

/-- The first node inside the parentheses -/
def bodyStart : Option Ptr → Nat
  | none => 0
  | some sub => sub + 1

/-- What lies outside the parentheses is left alone. -/
def Outside (sub : Option Ptr) (b b' : Builder) : Prop :=
  ∀ ptr, sub = some ptr →
    b'.commandRoot = b.commandRoot ∧ ∀ a < ptr, b'.heap a = b.heap a

variable {sub : Option Ptr} {b' b'' : Builder}

theorem Outside.refl (sub : Option Ptr) (b : Builder) : Outside sub b b :=
  fun _ _ => ⟨rfl, fun _ _ => rfl⟩

theorem Outside.trans (h : Outside sub b b') (h' : Outside sub b' b'') :
    Outside sub b b'' := by
  intro ptr hsub
  obtain ⟨hroot, hheap⟩ := h ptr hsub
  obtain ⟨hroot', hheap'⟩ := h' ptr hsub
  exact ⟨hroot'.trans hroot, fun a ha => (hheap' a ha).trans (hheap a ha)⟩

theorem Builder.Tops.top (h : b.Tops sub root) : b.top = some root := by
  cases sub with
  | none => simp [Builder.top, h.1, h.2]
  | some ptr =>
      obtain ⟨hinside, hsub, hnode⟩ := h
      simp [Builder.top, hinside, hsub, hnode, Members.body]

theorem Builder.Tops.write (h : b.Tops sub root) {a : Nat} (ha : bodyStart sub ≤ a)
    (node : Node) : (b.write a node).Tops sub root ∧ Outside sub b (b.write a node) := by
  cases sub with
  | none => exact ⟨h, fun ptr hptr => by cases hptr⟩
  | some sub =>
      have hle : sub < a := ha
      refine ⟨⟨h.1, h.2.1, ?_⟩, ?_⟩
      · simpa [Builder.write, hle.ne] using h.2.2
      · intro ptr hptr
        obtain rfl := Option.some.inj hptr
        refine ⟨rfl, fun a' ha' => ?_⟩
        simp [Builder.write, (ha'.trans hle).ne]

/-- The parts of a builder that an operator does not look at. -/
theorem Builder.Tops.congr (h : b.Tops sub root)
    (hheap : ∀ a < bodyStart sub, b'.heap a = b.heap a)
    (hroot : b'.commandRoot = b.commandRoot) (hinside : b'.isSubshell = b.isSubshell)
    (hsub : b'.subshellRoot = b.subshellRoot) :
    b'.Tops sub root ∧ Outside sub b b' := by
  cases sub with
  | none => exact ⟨⟨hinside.trans h.1, hroot.trans h.2⟩, fun ptr hptr => by cases hptr⟩
  | some sub =>
      refine ⟨⟨hinside.trans h.1, hsub.trans h.2.1, ?_⟩, ?_⟩
      · exact (hheap sub (Nat.lt_succ_self sub)).trans h.2.2
      · intro ptr hptr
        obtain rfl := Option.some.inj hptr
        exact ⟨hroot, fun a ha => hheap a (ha.trans (Nat.lt_succ_self sub))⟩

theorem Builder.Tops.setTop (h : b.Tops sub root) (ptr : Ptr) :
    (b.setTop ptr).Tops sub ptr ∧ Outside sub b (b.setTop ptr) ∧
      (∀ a, bodyStart sub ≤ a → (b.setTop ptr).heap a = b.heap a) ∧
      (b.setTop ptr).next = b.next := by
  cases sub with
  | none =>
      have hset : b.setTop ptr = { b with commandRoot := ptr } := by
        simp [Builder.setTop, h.1]
      rw [hset]
      exact ⟨⟨h.1, rfl⟩, fun p hp => (by cases hp), fun _ _ => rfl, rfl⟩
  | some sub =>
      obtain ⟨hinside, hsub, hnode⟩ := h
      have hset : b.setTop ptr =
          b.write sub { b.heap sub with u := .subshellCommand (some ptr) } := by
        simp [Builder.setTop, hinside, hsub]
      rw [hset]
      refine ⟨⟨hinside, hsub, ?_⟩, ?_, ?_, rfl⟩
      · simp [Builder.write, hnode]
      · intro p hp
        obtain rfl := Option.some.inj hp
        exact ⟨rfl, fun a ha => by simp [Builder.write, ha.ne]⟩
      · intro a ha
        have hne : a ≠ sub := (Nat.lt_of_succ_le ha).ne'
        simp [Builder.write, hne]

/-! ## The state inside a list -/

/-- `spine` is what was read before the command at `parse_command`, since the
open `(` if there is one. -/
structure Pending (b : Builder) (sub : Option Ptr) (root : Ptr) (spine : Spine)
    (node : Node) : Prop where
  tops : b.Tops sub root
  descends : Descends b.heap (bodyStart sub) root spine b.parseCommand
  node : b.heap b.parseCommand = node
  next : b.next = b.parseCommand + 1

/-- The same outside parentheses. -/
structure Parsing (b : Builder) (spine : Spine) (node : Node) : Prop where
  descends : Descends b.heap 0 b.commandRoot spine b.parseCommand
  node : b.heap b.parseCommand = node
  next : b.next = b.parseCommand + 1
  subshell : b.isSubshell = false

variable {spine : Spine} {node : Node} {c : Command}

theorem Parsing.pending (h : Parsing b spine node) :
    Pending b none b.commandRoot spine node where
  tops := ⟨h.subshell, rfl⟩
  descends := h.descends
  node := h.node
  next := h.next

theorem Pending.parsing (h : Pending b none root spine node) : Parsing b spine node where
  descends := by
    obtain ⟨-, rfl⟩ := h.tops
    exact h.descends
  node := h.node
  next := h.next
  subshell := h.tops.1

theorem parsing_start : Parsing startBuilder [] {} where
  descends := ⟨Nat.le_refl _, rfl⟩
  node := rfl
  next := rfl
  subshell := rfl

/-- Only the node at `parse_command` is written. -/
theorem Pending.write (h : Pending b sub root spine node) (node' : Node) :
    Pending (b.write b.parseCommand node') sub root spine node' ∧
      Outside sub b (b.write b.parseCommand node') := by
  have hle := h.descends.le
  obtain ⟨htops, houtside⟩ := h.tops.write (hle.1.trans hle.2) node'
  refine ⟨?_, houtside⟩
  exact {
    tops := htops
    descends := by
      apply h.descends.congr
      intro a ha
      simp [Builder.write, ha.ne]
    node := by simp [Builder.write]
    next := h.next }

/-! ## Operators -/

/-- The operators that take only the right operand of the top node. -/
def Operator.goesBelow : Operator → Operator → Bool
  | .pipeCommand => fun top => top = .andCommand || top = .orCommand ||
      top = .sequenceCommand
  | .andCommand | .orCommand => fun top => top = .sequenceCommand
  | .sequenceCommand => fun _ => false

def Operator.token : Operator → TokenType
  | .pipeCommand => .pipeline
  | .andCommand => .and
  | .orCommand => .or
  | .sequenceCommand => .semicolon

theorem buildToken_operator (operator : Operator) (content : Option CString)
    (b : Builder) : buildToken ⟨operator.token, content⟩ b =
      buildOperator operator.goesBelow operator b := by
  cases operator with
  | pipeCommand | andCommand | orCommand | sequenceCommand => rfl

/-- What lies before the command after an operator. -/
def Operator.descend (operator : Operator) : Spine → Command → Spine
  | [], c => [(operator, c)]
  | entry :: spine, c =>
      if operator.goesBelow entry.1 then [entry, (operator, plug spine c)]
      else [(operator, plug (entry :: spine) c)]

/-- A node that was allocated before is left alone by `putAbove`. -/
theorem putAbove_heap {b : Builder} {a : Nat} (hlt : a < b.next)
    (left : Option Ptr) (operator : Operator) :
    (b.putAbove left operator).heap a = b.heap a := by
  have hne : a ≠ b.next + 1 := (Nat.lt_succ_of_lt hlt).ne
  simp [Builder.putAbove, Builder.write, hlt.ne, hne]

theorem putAbove_new (b : Builder) (left : Option Ptr) (operator : Operator) :
    (b.putAbove left operator).heap b.next =
        { type := some (.operator operator),
          u := .command left (some (b.next + 1)) } ∧
      (b.putAbove left operator).heap (b.next + 1) = {} := by
  constructor
  · simp [Builder.putAbove, Builder.write]
  · simp [Builder.putAbove, Builder.write]

theorem Builder.Tops.putAbove (h : b.Tops sub root) (hlt : bodyStart sub ≤ b.next)
    (left : Option Ptr) (operator : Operator) :
    (b.putAbove left operator).Tops sub root ∧ Outside sub b (b.putAbove left operator) :=
  h.congr (fun _ ha => putAbove_heap (ha.trans_le hlt) left operator) rfl rfl rfl

/-- The operator goes above everything that was read. -/
theorem Pending.above (h : Pending b sub root spine node)
    (hleaf : Kept b.heap {b.parseCommand} b.parseCommand c)
    (operator : Operator) :
    Pending ((b.setTop b.next).putAbove (some root) operator) sub b.next
        [(operator, plug spine c)] {} ∧
      Outside sub b ((b.setTop b.next).putAbove (some root) operator) := by
  have hle := h.descends.le
  have hstart : bodyStart sub ≤ b.next := by
    rw [h.next]
    exact (hle.1.trans hle.2).trans (Nat.le_succ _)
  have hwhole := h.descends.close hleaf
  rw [← h.next] at hwhole
  obtain ⟨htops, houtside, hheap, hnext⟩ := h.tops.setTop b.next
  obtain ⟨htops', houtside'⟩ :=
    htops.putAbove (hstart.trans hnext.ge) (some root) operator
  obtain ⟨hnew, hright⟩ := putAbove_new (b.setTop b.next) (some root) operator
  rw [hnext] at hnew hright
  have hparse : ((b.setTop b.next).putAbove (some root) operator).parseCommand =
      b.next + 1 := congrArg (· + 1) hnext
  refine ⟨?_, houtside.trans houtside'⟩
  exact {
    tops := htops'
    descends := by
      refine ⟨hstart, _, _, hnew, ?_, Nat.le_refl _, hparse.symm⟩
      apply hwhole.congr
      intro a ha
      rw [putAbove_heap (ha.2.trans_eq hnext.symm), hheap a ha.1]
    node := by
      rw [hparse]
      exact hright
    next := rfl }

/-- The operator goes above the right child of the root. -/
theorem Pending.below {entry : Operator × Command}
    (h : Pending b sub root (entry :: spine) node)
    (hleaf : Kept b.heap {b.parseCommand} b.parseCommand c)
    (operator : Operator) :
    Pending ((b.write root
        { b.heap root with u := (b.heap root).u.setSecond (some b.next) }).putAbove
        (b.heap root).u.second operator) sub root
      [entry, (operator, plug spine c)] {} ∧
      Outside sub b ((b.write root
        { b.heap root with u := (b.heap root).u.setSecond (some b.next) }).putAbove
        (b.heap root).u.second operator) := by
  obtain ⟨hlo, first, second, hroot, hleft, hrest⟩ := h.descends
  have hpipe := hrest.close hleaf
  rw [← h.next] at hpipe
  have hle := hrest.le
  have hlt : root < b.next := by
    rw [h.next]
    exact Nat.lt_succ_of_le (Nat.le_of_succ_le (hle.1.trans hle.2))
  rw [hroot]
  set written := b.write root
    { type := some (.operator entry.1), u := .command (some first) (some b.next) }
    with hwritten
  obtain ⟨htops, houtside⟩ := h.tops.write hlo
    { type := some (.operator entry.1), u := .command (some first) (some b.next) }
  obtain ⟨htops', houtside'⟩ :=
    htops.putAbove (hlo.trans hlt.le) (some second) operator
  obtain ⟨hnew, hright⟩ := putAbove_new written (some second) operator
  have hkeep : ∀ a < b.next, a ≠ root →
      (written.putAbove (some second) operator).heap a = b.heap a := by
    intro a ha hne
    rw [putAbove_heap (show a < written.next from ha)]
    simp [hwritten, Builder.write, hne]
  refine ⟨?_, houtside.trans houtside'⟩
  exact {
    tops := htops'
    descends := by
      refine ⟨hlo, first, b.next, ?_, ?_, hlt, second, b.next + 1, hnew, ?_,
        Nat.le_refl _, rfl⟩
      · refine (putAbove_heap (show root < written.next from hlt) _ _).trans ?_
        simp [hwritten, Builder.write]
      · apply hleft.congr
        intro a ha
        exact hkeep a (ha.2.trans hlt) ha.2.ne
      · apply hpipe.congr
        intro a ha
        exact hkeep a ha.2 (Nat.lt_of_succ_le ha.1).ne'
    node := hright
    next := rfl }

/-- The node at `parse_command` is a simple command with a word. -/
structure Node.Simple (node : Node) (word : List CString) : Prop where
  type : node.type = some .simpleCommand
  u : node.u = .word word
  ne_nil : word ≠ []

variable {word : List CString}

theorem Pending.kept (h : Pending b sub root spine node) (hsimple : node.Simple word) :
    Kept b.heap {b.parseCommand} b.parseCommand
      (.simple node.redirections word) :=
  kept_simple h.node hsimple.type hsimple.u hsimple.ne_nil

theorem Pending.root_type {entry : Operator × Command}
    (h : Pending b sub root (entry :: spine) node) :
    (b.heap root).type = some (.operator entry.1) := by
  obtain ⟨-, first, second, hroot, -, -⟩ := h.descends
  rw [hroot]

theorem Pending.root_type_nil (h : Pending b sub root [] node) :
    (b.heap root).type = node.type := by
  obtain ⟨-, hroot⟩ := h.descends
  rw [hroot, h.node]

/-- An operator behind a simple command. -/
theorem Pending.operator (h : Pending b sub root spine node)
    (hsimple : node.Simple word) (operator : Operator) :
    ∃ b' root', buildOperator operator.goesBelow operator b = some b' ∧
      Pending b' sub root'
        (operator.descend spine (.simple node.redirections word)) {} ∧
      Outside sub b b' := by
  have hkept := h.kept hsimple
  have htop := h.tops.top
  cases spine with
  | nil =>
      have htype := h.root_type_nil.trans hsimple.type
      exact ⟨_, _, buildOperator_above htop (by simp [htype]) operator, h.above hkept operator⟩
  | cons entry spine =>
      have htype := h.root_type
      rw [Operator.descend]
      by_cases hbelow : operator.goesBelow entry.1 = true
      · rw [if_pos hbelow]
        exact ⟨_, _, buildOperator_below htop htype hbelow operator, h.below hkept operator⟩
      · rw [if_neg hbelow]
        refine ⟨_, _, buildOperator_above htop ?_ operator, h.above hkept operator⟩
        simpa [htype] using hbelow

theorem Parsing.kept (h : Parsing b spine node) (hsimple : node.Simple word) :
    Kept b.heap {b.parseCommand} b.parseCommand
      (.simple node.redirections word) :=
  h.pending.kept hsimple

theorem Parsing.operator (h : Parsing b spine node) (hsimple : node.Simple word)
    (operator : Operator) :
    ∃ b', buildOperator operator.goesBelow operator b = some b' ∧
      Parsing b' (operator.descend spine (.simple node.redirections word)) {} := by
  obtain ⟨b', root', hbuild, hpending, -⟩ := h.pending.operator hsimple operator
  exact ⟨b', hbuild, hpending.parsing⟩

/-! ## Simple commands -/

theorem buildTokens_word (previous : TokenType) (content : CString)
    (rest : List Token) (b : Builder) :
    buildTokens previous (⟨.word, some content⟩ :: rest) b =
      buildTokens .word rest (buildWord content b) := by
  rw [buildTokens_of_plain (by simp [TokenType.isRedirection])]
  rfl

theorem Builder.write_write (b : Builder) (a : Nat) (node node' : Node) :
    (b.write a node).write a node' = b.write a node' := by
  simp [Builder.write]

theorem buildTokens_part (part : Part) (rest : List Token)
    (hnode : b.heap b.parseCommand = node) (hsimple : node.Simple word) :
    ∃ node', buildTokens .word (part.tokens ++ rest) b =
        buildTokens .word rest (b.write b.parseCommand node') ∧
      node'.Simple (word ++ part.word?.toList) ∧
      node'.redirections = ⟨part.input?.or node.input,
        part.output?.or node.output⟩ := by
  cases part with
  | word content =>
      have hword : buildWord content b = b.write b.parseCommand
          { node with u := .word (word ++ [content]) } := by
        rw [buildWord, hnode, if_pos hsimple.type, hsimple.u]
        rfl
      refine ⟨{ node with u := .word (word ++ [content]) }, ?_,
        ⟨hsimple.type, rfl, by simp [hsimple.ne_nil]⟩, rfl⟩
      rw [← hword]
      exact buildTokens_word .word content rest b
  | input file =>
      refine ⟨{ node with input := some file }, ?_,
        ⟨hsimple.type, ?_, by simp [hsimple.ne_nil]⟩, rfl⟩
      · simp [Part.tokens, buildTokens, TokenType.isRedirection,
          buildRedirection, setRedirection, hnode]
      · simpa [Part.word?] using hsimple.u
  | output file =>
      refine ⟨{ node with output := some file }, ?_,
        ⟨hsimple.type, ?_, by simp [hsimple.ne_nil]⟩, rfl⟩
      · simp [Part.tokens, buildTokens, TokenType.isRedirection,
          buildRedirection, setRedirection, hnode]
      · simpa [Part.word?] using hsimple.u

theorem getLast?_cons_or {α : Type} (a : α) (l : List α) (x : Option α) :
    (a :: l).getLast?.or x = l.getLast?.or (some a) := by
  rw [List.getLast?_cons]
  cases l.getLast? with
  | none => rfl
  | some last => rfl

theorem buildTokens_parts (parts : List Part) (rest : List Token)
    (hnode : b.heap b.parseCommand = node) (hsimple : node.Simple word) :
    ∃ node', buildTokens .word (parts.flatMap Part.tokens ++ rest) b =
        buildTokens .word rest (b.write b.parseCommand node') ∧
      node'.Simple (word ++ parts.filterMap Part.word?) ∧
      node'.redirections =
        ⟨(parts.filterMap Part.input?).getLast?.or node.input,
          (parts.filterMap Part.output?).getLast?.or node.output⟩ := by
  induction parts generalizing b node word with
  | nil =>
      refine ⟨node, ?_, by simpa using hsimple, rfl⟩
      have hsame : b.write b.parseCommand node = b := by
        rw [← hnode]
        simp [Builder.write]
      rw [hsame]
      rfl
  | cons part parts ih =>
      obtain ⟨node₁, hrun, hsimple₁, hredirections⟩ :=
        buildTokens_part part (parts.flatMap Part.tokens ++ rest) hnode hsimple
      have hnode₁ : (b.write b.parseCommand node₁).heap
          (b.write b.parseCommand node₁).parseCommand = node₁ := by
        simp [Builder.write]
      obtain ⟨node₂, hrun₂, hsimple₂, hredirections₂⟩ := ih hnode₁ hsimple₁
      refine ⟨node₂, ?_, ?_, ?_⟩
      · rw [List.flatMap_cons, List.append_assoc, hrun, hrun₂]
        exact congrArg _ (b.write_write _ _ _)
      · convert hsimple₂ using 1
        cases part <;> simp [Part.word?, List.filterMap_cons]
      · obtain ⟨hinput, houtput⟩ := Redirections.mk.inj hredirections
        rw [hredirections₂, hinput, houtput]
        cases part <;>
          simp [Part.input?, Part.output?, List.filterMap_cons, getLast?_cons_or]

theorem SimpleText.node_simple (s : SimpleText) :
    s.node.Simple (s.first :: s.parts.filterMap Part.word?) :=
  ⟨rfl, rfl, by simp⟩

theorem Node.Simple.eq {node node' : Node} (h : node.Simple word) (h' : node'.Simple word)
    (hredirections : node.redirections = node'.redirections) : node = node' := by
  obtain ⟨type, input, output, u⟩ := node
  obtain ⟨type', input', output', u'⟩ := node'
  obtain rfl : type = type' := h.type.trans h'.type.symm
  obtain rfl : u = u' := h.u.trans h'.u.symm
  obtain ⟨rfl, rfl⟩ := Redirections.mk.inj hredirections
  rfl

/-- The tokens of a simple command fill the node at `parse_command`. -/
theorem buildTokens_simple (s : SimpleText) (previous : TokenType) (rest : List Token)
    (htype : (b.heap b.parseCommand).type ≠ some .simpleCommand) :
    buildTokens previous (s.tokens ++ rest) b =
      buildTokens .word rest (b.write b.parseCommand s.node) := by
  have hword : buildWord s.first b = b.write b.parseCommand
      { type := some .simpleCommand, u := .word [s.first] } := by
    rw [buildWord, if_neg htype]
  have hfirst : Node.Simple
      { type := some .simpleCommand, u := .word [s.first] } [s.first] :=
    ⟨rfl, rfl, by simp⟩
  have hnode : (b.write b.parseCommand
      { type := some .simpleCommand, u := .word [s.first] }).heap
        (b.write b.parseCommand
          { type := some .simpleCommand, u := .word [s.first] }).parseCommand =
      { type := some .simpleCommand, u := .word [s.first] } := by
    simp [Builder.write]
  obtain ⟨node', hrun, hsimple, hredirections⟩ :=
    buildTokens_parts s.parts rest hnode hfirst
  have hsame : node' = s.node := by
    refine hsimple.eq s.node_simple ?_
    rw [hredirections]
    simp [Node.redirections, SimpleText.node]
  rw [SimpleText.tokens, List.cons_append, buildTokens_word, hword, hrun, hsame]
  exact congrArg _ (b.write_write _ _ _)

theorem Parsing.simple (h : Parsing b spine {}) (s : SimpleText)
    (previous : TokenType) (rest : List Token) :
    ∃ b' node' word, buildTokens previous (s.tokens ++ rest) b =
        buildTokens .word rest b' ∧
      Parsing b' spine node' ∧ node'.Simple word ∧
      .simple node'.redirections word = s.command :=
  ⟨_, s.node, _, buildTokens_simple s previous rest (by simp [h.node]),
    (h.pending.write s.node).1.parsing, s.node_simple, rfl⟩

/-! ## Pipelines -/

theorem plug_append (outer inner : Spine) (c : Command) :
    plug (outer ++ inner) c = plug outer (plug inner c) := by
  induction outer with
  | nil => rfl
  | cons entry outer ih => simp [plug, ih]

/-- The list before a pipeline, with the connective behind it. -/
def beforePipeline : Option (Connective × Command) → Spine
  | none => []
  | some (connective, left) => [(connective.operator, left)]

/-- The commands of a pipeline before the last one. -/
def beforePipe : Option Command → Spine
  | none => []
  | some left => [(.pipeCommand, left)]

variable {list : Option (Connective × Command)} {left : Option Command}

/-- `|` takes the pipeline that it stands in as its left operand. -/
theorem Parsing.pipe (h : Parsing b (beforePipeline list ++ beforePipe left) node)
    (hsimple : node.Simple word) :
    ∃ b', buildPipeline b = some b' ∧
      Parsing b' (beforePipeline list ++ beforePipe
        (some (plug (beforePipe left) (.simple node.redirections word)))) {} := by
  have hnext := h.operator hsimple .pipeCommand
  cases list with
  | none =>
      cases left with
      | none => exact hnext
      | some left => exact hnext
  | some entry =>
      obtain ⟨connective, before⟩ := entry
      cases connective with
      | and => exact hnext
      | or => exact hnext

theorem Parsing.pipes (h : Parsing b (beforePipeline list ++ beforePipe left) node)
    (hsimple : node.Simple word) (commands : List SimpleText)
    (rest : List Token) :
    ∃ b' left' node' word', buildTokens .word
          ((commands.flatMap fun s => ⟨.pipeline, none⟩ :: s.tokens) ++ rest) b =
        buildTokens .word rest b' ∧
      Parsing b' (beforePipeline list ++ beforePipe left') node' ∧
      node'.Simple word' ∧
      plug (beforePipe left') (.simple node'.redirections word') =
        commands.foldl (fun left s => .binary .pipeCommand {} left s.command)
          (plug (beforePipe left) (.simple node.redirections word)) := by
  induction commands generalizing b left node word with
  | nil => exact ⟨b, left, node, word, rfl, h, hsimple, rfl⟩
  | cons s commands ih =>
      obtain ⟨b₁, hpipe, h₁⟩ := h.pipe hsimple
      obtain ⟨b₂, node₂, word₂, hrun₂, h₂, hsimple₂, hcommand⟩ :=
        h₁.simple s .pipeline
          ((commands.flatMap fun s => ⟨.pipeline, none⟩ :: s.tokens) ++ rest)
      obtain ⟨b₃, left₃, node₃, word₃, hrun₃, h₃, hsimple₃, htree⟩ :=
        ih h₂ hsimple₂
      refine ⟨b₃, left₃, node₃, word₃, ?_, h₃, hsimple₃, ?_⟩
      · rw [List.flatMap_cons, List.append_assoc, List.cons_append,
          buildTokens_of_plain (by simp [TokenType.isRedirection])]
        simp only [buildToken]
        rw [hpipe, Option.bind_some, hrun₂, hrun₃]
      · rw [htree, List.foldl_cons, hcommand]
        rfl

theorem Parsing.pipeline (h : Parsing b (beforePipeline list) {})
    (p : PipelineText) (previous : TokenType) (rest : List Token) :
    ∃ b' left' node' word', buildTokens previous (p.tokens ++ rest) b =
        buildTokens .word rest b' ∧
      Parsing b' (beforePipeline list ++ beforePipe left') node' ∧
      node'.Simple word' ∧
      plug (beforePipe left') (.simple node'.redirections word') = p.command := by
  obtain ⟨b₁, node₁, word₁, hrun₁, h₁, hsimple₁, hcommand⟩ :=
    h.simple p.first previous
      ((p.rest.flatMap fun s => ⟨.pipeline, none⟩ :: s.tokens) ++ rest)
  have hstart : Parsing b₁ (beforePipeline list ++ beforePipe none) node₁ := by
    simpa [beforePipe] using h₁
  obtain ⟨b₂, left₂, node₂, word₂, hrun₂, h₂, hsimple₂, htree⟩ :=
    hstart.pipes hsimple₁ p.rest rest
  refine ⟨b₂, left₂, node₂, word₂, ?_, h₂, hsimple₂, ?_⟩
  · rw [PipelineText.tokens, List.append_assoc, hrun₁, hrun₂]
  · rw [htree, PipelineText.command, ← hcommand]
    rfl

/-! ## Lists -/

/-- `&&` and `||` take everything that was read as their left operand. -/
theorem Parsing.connective
    (h : Parsing b (beforePipeline list ++ beforePipe left) node)
    (hsimple : node.Simple word) (connective : Connective) :
    ∃ b', buildToken ⟨connective.token, none⟩ b = some b' ∧
      Parsing b' (beforePipeline (some (connective,
        plug (beforePipeline list)
          (plug (beforePipe left) (.simple node.redirections word))))) {} := by
  have htoken : buildToken ⟨connective.token, none⟩ b =
      buildOperator connective.operator.goesBelow connective.operator b := by
    cases connective with
    | and => rfl
    | or => rfl
  have hspine : connective.operator.descend (beforePipeline list ++ beforePipe left)
      (.simple node.redirections word) = beforePipeline (some (connective,
        plug (beforePipeline list)
          (plug (beforePipe left) (.simple node.redirections word)))) := by
    rw [← plug_append]
    cases connective <;> rcases list with _ | ⟨first | first, tree⟩ <;> cases left <;> rfl
  rw [htoken, ← hspine]
  exact h.operator hsimple connective.operator

theorem Parsing.connectives
    (h : Parsing b (beforePipeline list ++ beforePipe left) node)
    (hsimple : node.Simple word)
    (pipelines : List (Connective × PipelineText)) (rest : List Token) :
    ∃ b' list' left' node' word', buildTokens .word
          ((pipelines.flatMap fun (c, p) => ⟨c.token, none⟩ :: p.tokens) ++ rest)
          b = buildTokens .word rest b' ∧
      Parsing b' (beforePipeline list' ++ beforePipe left') node' ∧
      node'.Simple word' ∧
      plug (beforePipeline list')
          (plug (beforePipe left') (.simple node'.redirections word')) =
        pipelines.foldl (fun left (c, p) => .binary c.operator {} left p.command)
          (plug (beforePipeline list)
            (plug (beforePipe left) (.simple node.redirections word))) := by
  induction pipelines generalizing b list left node word with
  | nil => exact ⟨b, list, left, node, word, rfl, h, hsimple, rfl⟩
  | cons entry pipelines ih =>
      obtain ⟨connective, p⟩ := entry
      obtain ⟨b₁, hconnective, h₁⟩ := h.connective hsimple connective
      obtain ⟨b₂, left₂, node₂, word₂, hrun₂, h₂, hsimple₂, hcommand⟩ :=
        h₁.pipeline p connective.token
          ((pipelines.flatMap fun (c, p) => ⟨c.token, none⟩ :: p.tokens) ++ rest)
      obtain ⟨b₃, list₃, left₃, node₃, word₃, hrun₃, h₃, hsimple₃, htree⟩ :=
        ih h₂ hsimple₂
      have hplain : (⟨connective.token, none⟩ : Token).token.isRedirection =
          false := by
        cases connective with
        | and => rfl
        | or => rfl
      refine ⟨b₃, list₃, left₃, node₃, word₃, ?_, h₃, hsimple₃, ?_⟩
      · rw [List.flatMap_cons, List.append_assoc, List.cons_append,
          buildTokens_of_plain hplain, hconnective, Option.bind_some, hrun₂,
          hrun₃]
      · rw [htree, List.foldl_cons, hcommand]
        rfl

/-- The tokens of a list build its tree. -/
theorem buildTokens_andOr (a : AndOrText) (rest : List Token) :
    ∃ b, buildTokens .null (a.tokens ++ rest) startBuilder =
        buildTokens .word rest b ∧
      Stores b.heap b.commandRoot a.command := by
  obtain ⟨b₁, left₁, node₁, word₁, hrun₁, h₁, hsimple₁, hfirst⟩ :=
    (show Parsing startBuilder (beforePipeline none) {} from
      parsing_start).pipeline a.first .null
        ((a.rest.flatMap fun (c, p) => ⟨c.token, none⟩ :: p.tokens) ++ rest)
  obtain ⟨b₂, list₂, left₂, node₂, word₂, hrun₂, h₂, hsimple₂, htree⟩ :=
    h₁.connectives hsimple₁ a.rest rest
  refine ⟨b₂, ?_, ?_⟩
  · rw [AndOrText.tokens, List.append_assoc, hrun₁, hrun₂]
  · have hclosed := h₂.descends.close (h₂.kept hsimple₂)
    rw [plug_append, htree, hfirst] at hclosed
    exact hclosed.stores

/-! ## The call -/

/-- Cells that `read_command_stream` neither skips nor stops at. -/
def Running (cells : List Token) : Prop :=
  ∀ cell ∈ cells, cell.token ≠ .endCmd ∧ cell.token ≠ .null

theorem running_cons {cell : Token} {cells : List Token}
    (hcell : cell.token ≠ .endCmd ∧ cell.token ≠ .null) (h : Running cells) :
    Running (cell :: cells) :=
  List.forall_mem_cons.mpr ⟨hcell, h⟩

theorem running_append {cells cells' : List Token} (h : Running cells)
    (h' : Running cells') : Running (cells ++ cells') := by
  intro cell hcell
  rcases List.mem_append.mp hcell with hleft | hright
  · exact h cell hleft
  · exact h' cell hright

theorem running_flatMap {α : Type} {l : List α} {f : α → List Token}
    (h : ∀ x ∈ l, Running (f x)) : Running (l.flatMap f) := by
  intro cell hcell
  obtain ⟨x, hx, hmem⟩ := List.mem_flatMap.mp hcell
  exact h x hx cell hmem

theorem running_simple (s : SimpleText) : Running s.tokens := by
  apply running_cons (by simp)
  apply running_flatMap
  intro part _
  cases part <;> simp [Running, Part.tokens]

theorem running_pipeline (p : PipelineText) : Running p.tokens := by
  apply running_append (running_simple p.first)
  apply running_flatMap
  intro s _
  exact running_cons (by simp) (running_simple s)

theorem running_andOr (a : AndOrText) : Running a.tokens := by
  apply running_append (running_pipeline a.first)
  apply running_flatMap
  rintro ⟨connective, p⟩ _
  apply running_cons _ (running_pipeline p)
  cases connective <;> simp [Connective.token]

theorem AndOrText.tokens_ne_nil (a : AndOrText) : a.tokens ≠ [] := by
  simp [AndOrText.tokens, PipelineText.tokens, SimpleText.tokens]

/-- A call on the cells of a list, behind cells that were read before. -/
theorem readCommandStream_andOr (before : List Token) (a : AndOrText)
    (content : Option CString) (after : List Token) :
    ∃ parsed, readCommandStream
        (before.map clear ++ (a.tokens ++ Token.mk .endCmd content :: after)) =
          some (some parsed, before.map clear ++
            (a.tokens ++ [Token.mk .endCmd content]).map clear ++ endNext after) ∧
      Stores parsed.heap parsed.commandRoot a.command := by
  have hcleared : Cleared (before.map clear) := by
    intro cell hcell
    obtain ⟨_, -, rfl⟩ := List.mem_map.mp hcell
    rfl
  obtain ⟨b, hrun, hstores⟩ := buildTokens_andOr a [Token.mk .endCmd content]
  have hend : buildTokens .word [Token.mk .endCmd content] b = some b := by
    rw [buildTokens_of_plain (by simp [TokenType.isRedirection])]
    rfl
  refine ⟨⟨b.heap, b.commandRoot⟩, ?_, hstores⟩
  rw [readCommandStream_eq after hcleared
    (fun cell hcell => (running_andOr a cell hcell).1)
    (fun cell hcell => (running_andOr a cell hcell).2) rfl,
    if_neg a.tokens_ne_nil, hrun, hend]
  rfl

end Cs111Labs.Shell
