import Cs111Labs.Shell.OwnRedirections

/-!
# The arrays of words

`u.word` points to an array of `char *`.  `read_command_stream` keeps one size
for the arrays of all its nodes, finds the place of a word by the first null
pointer, and counts the words again to decide whether the array is full.
-/

namespace Cs111Labs.Shell

open Foundation

inductive WordCell where
  | unset
  | null
  | word (content : CString)
  deriving DecidableEq, Repr

/-- An access behind the end of an array, or the use of what was not set. -/
inductive Fault where
  | outOfBounds
  | unset
  deriving DecidableEq, Repr

/-- The sizes stay far below `INT_MAX`: the array of tokens has more cells. -/
structure WordArray where
  capacity : Nat
  cells : Nat → WordCell

/--
The test `size >= lim * *buffer_size`.  The product is a `float`; whatever its
rounding, the test holds when one cell is left.
-/
structure WordLimit where
  reached : Nat → Nat → Bool
  reached_last : ∀ size, 8 ≤ size → reached (size - 1) size = true

def WordArray.store (i : Nat) (cell : WordCell) (array : WordArray) :
    Except Fault WordArray :=
  if i < array.capacity then .ok { array with cells := Function.update array.cells i cell }
  else .error .outOfBounds

/-- `count` cells from `i` on are set to 0. -/
def storeNulls : Nat → Nat → WordArray → Except Fault WordArray
  | 0, _, array => .ok array
  | count + 1, i, array => (array.store i .null).bind (storeNulls count (i + 1))

/-- The array of `generate_new_node`, with `initialize_word` -/
def initializeWord (wdBufferSize : Nat) : Except Fault WordArray :=
  storeNulls wdBufferSize 0 ⟨wdBufferSize, fun _ => .unset⟩

/-- `word_position`, where `left` cells are left at `ptr` -/
def wordPosition (cells : Nat → WordCell) : Nat → Nat → Except Fault Nat
  | 0, _ => .error .outOfBounds
  | left + 1, ptr =>
      match cells ptr with
      | .unset => .error .unset
      | .null => .ok ptr
      | .word _ => wordPosition cells left (ptr + 1)

/-- The first loop of `update_word`; the cell is read before the size is tested. -/
def wordCount (bufferSize : Nat) (cells : Nat → WordCell) : Nat → Nat → Except Fault Nat
  | 0, _ => .error .outOfBounds
  | left + 1, size =>
      match cells size with
      | .unset => .error .unset
      | .null => .ok size
      | .word _ =>
          if size < bufferSize then wordCount bufferSize cells left (size + 1) else .ok size

/-- The array and `*buffer_size` after `update_word` -/
def updateWord (limit : WordLimit) (bufferSize : Nat) (array : WordArray) :
    Except Fault (WordArray × Nat) :=
  (wordCount bufferSize array.cells array.capacity 0).bind fun size =>
    if limit.reached size bufferSize then
      (storeNulls 8 bufferSize
        ⟨bufferSize + 8, fun i => if i < array.capacity then array.cells i else .unset⟩).map
          fun array => (array, bufferSize + 8)
    else .ok (array, bufferSize)

/-- The end of the case of `WORD_TOKEN` -/
def appendWord (limit : WordLimit) (bufferSize : Nat) (content : CString) (array : WordArray) :
    Except Fault (WordArray × Nat) :=
  (wordPosition array.cells array.capacity 0).bind fun pos =>
    (array.store pos (.word content)).bind (updateWord limit bufferSize)

/-- The builder with the arrays of its simple commands. -/
structure ArrayBuilder extends Builder where
  wordArray : Ptr → WordArray
  wdBufferSize : Nat

def startArrays : ArrayBuilder where
  toBuilder := startBuilder
  wordArray _ := ⟨0, fun _ => .unset⟩
  wdBufferSize := 8

def arrayWord (limit : WordLimit) (content : CString) (s : ArrayBuilder) :
    Except Fault ArrayBuilder :=
  let array :=
    if (s.heap s.parseCommand).type = some .simpleCommand then .ok (s.wordArray s.parseCommand)
    else initializeWord s.wdBufferSize
  array.bind fun array =>
    (appendWord limit s.wdBufferSize content array).map fun (array, wdBufferSize) =>
      { toBuilder := buildWord content s.toBuilder
        wordArray := Function.update s.wordArray s.parseCommand array
        wdBufferSize := wdBufferSize }

/-- One token that is not a redirection. -/
def arrayToken (limit : WordLimit) (cell : Token) (s : ArrayBuilder) :
    Except Fault ArrayBuilder :=
  match cell.token with
  | .word =>
      match cell.content with
      | none => .error .unset
      | some content => arrayWord limit content s
  | _ =>
      match buildToken cell s.toBuilder with
      | none => .error .unset
      | some b => .ok { s with toBuilder := b }

/-- The loop of `read_command_stream` -/
def arrayTokens (limit : WordLimit) : TokenType → List Token → ArrayBuilder →
    Except Fault ArrayBuilder
  | _, [], s => .ok s
  | previous, cell :: cells, s =>
      if cell.token.isRedirection then
        match cells with
        | [] => .error .unset
        | operand :: cells =>
            match operand.content.bind fun content =>
              buildRedirection previous cell.token content s.toBuilder with
            | none => .error .unset
            | some b => arrayTokens limit operand.token cells { s with toBuilder := b }
      else (arrayToken limit cell s).bind (arrayTokens limit cell.token cells)

/-! ## One array -/

/-- The array holds the words, and the cells behind them are null. -/
structure HoldsWords (words : List CString) (array : WordArray) : Prop where
  room : words.length + 1 < array.capacity
  word : ∀ i content, words[i]? = some content → array.cells i = .word content
  null : ∀ i, words.length ≤ i → i < array.capacity → array.cells i = .null

/-- The array has exactly these words, and a null pointer behind them. -/
structure Terminates (words : List CString) (array : WordArray) : Prop where
  room : words.length < array.capacity
  word : ∀ i content, words[i]? = some content → array.cells i = .word content
  null : array.cells words.length = .null

section Arrays

variable {limit : WordLimit} {words : List CString} {array : WordArray} {bufferSize : Nat}

theorem HoldsWords.terminates (h : HoldsWords words array) : Terminates words array where
  room := Nat.lt_of_succ_lt h.room
  word := h.word
  null := h.null _ le_rfl (Nat.lt_of_succ_lt h.room)

theorem storeNulls_eq (count i : Nat) (array : WordArray) (hroom : i + count ≤ array.capacity) :
    storeNulls count i array = .ok { array with
      cells := fun j => if i ≤ j ∧ j < i + count then .null else array.cells j } := by
  induction count generalizing i array with
  | zero =>
      obtain ⟨capacity, cells⟩ := array
      rw [storeNulls]
      congr 2
      funext j
      rw [if_neg (by omega)]
  | succ count ih =>
      rw [storeNulls, WordArray.store, if_pos (by omega), Except.bind, ih _ _ (by simp; omega)]
      congr 2
      funext j
      dsimp only
      by_cases hj : j = i
      · subst hj
        simp
      · rw [Function.update_of_ne hj]
        congr 1
        exact propext (by omega)

theorem initializeWord_eq (hsize : 8 ≤ bufferSize) :
    ∃ array, initializeWord bufferSize = .ok array ∧ HoldsWords [] array ∧
      array.capacity = bufferSize := by
  refine ⟨_, storeNulls_eq bufferSize 0 _ (by simp), ⟨?_, nofun, ?_⟩, rfl⟩
  · exact Nat.lt_of_lt_of_le (by decide) hsize
  · intro i _ hi
    dsimp only at hi ⊢
    rw [if_pos (by omega)]

theorem Terminates.cell (h : Terminates words array) {i : Nat} (hi : i < words.length) :
    ∃ content, array.cells i = .word content :=
  ⟨words[i], h.word i _ (List.getElem?_eq_getElem hi)⟩

theorem Terminates.wordPosition_eq (h : Terminates words array) (left ptr : Nat)
    (hleft : ptr + left = array.capacity) (hptr : ptr ≤ words.length) :
    wordPosition array.cells left ptr = .ok words.length := by
  induction left generalizing ptr with
  | zero =>
      have hroom := h.room
      omega
  | succ left ih =>
      rw [wordPosition]
      rcases Nat.lt_or_eq_of_le hptr with hlt | rfl
      · obtain ⟨content, hcell⟩ := h.cell hlt
        rw [hcell]
        exact ih (ptr + 1) (by omega) hlt
      · rw [h.null]

theorem Terminates.wordCount_eq (h : Terminates words array) (left size : Nat)
    (hleft : size + left = array.capacity) (hsize : size ≤ words.length)
    (hbuffer : array.capacity = bufferSize) :
    wordCount bufferSize array.cells left size = .ok words.length := by
  have hroom := h.room
  induction left generalizing size with
  | zero => omega
  | succ left ih =>
      rw [wordCount]
      rcases Nat.lt_or_eq_of_le hsize with hlt | rfl
      · obtain ⟨content, hcell⟩ := h.cell hlt
        rw [hcell]
        dsimp only
        rw [if_pos (by omega)]
        exact ih (size + 1) (by omega) hlt
      · rw [h.null]

/-- With at least one cell left behind the null pointer a word can be stored. -/
theorem HoldsWords.store (h : HoldsWords words array) (content : CString) :
    ∃ array', array.store words.length (.word content) = .ok array' ∧
      array'.capacity = array.capacity ∧ Terminates (words ++ [content]) array' ∧
      ∀ i, words.length < i → i < array'.capacity → array'.cells i = .null := by
  have hroom := h.room
  refine ⟨_, if_pos (by omega), rfl, ⟨?_, fun i c hc => ?_, ?_⟩, fun i hi hlt => ?_⟩
  · simpa using hroom
  · dsimp only
    rcases Nat.lt_trichotomy i words.length with hlt | rfl | hgt
    · rw [List.getElem?_append_left hlt] at hc
      rw [Function.update_of_ne hlt.ne]
      exact h.word i c hc
    · rw [List.getElem?_concat_length] at hc
      rw [Function.update_self, Option.some.inj hc]
    · rw [List.getElem?_eq_none (by simpa using hgt)] at hc
      cases hc
  · dsimp only
    rw [List.length_append, List.length_singleton, Function.update_of_ne (by omega)]
    exact h.null _ (Nat.le_succ _) hroom
  · dsimp only
    rw [Function.update_of_ne hi.ne']
    exact h.null i hi.le hlt

/-- A word is appended, and the array has room for the next one. -/
theorem HoldsWords.append (h : HoldsWords words array) (content : CString)
    (hbuffer : array.capacity = bufferSize) (hsize : 8 ≤ bufferSize) :
    ∃ array' size, appendWord limit bufferSize content array = .ok (array', size) ∧
      HoldsWords (words ++ [content]) array' ∧ array'.capacity = size ∧ 8 ≤ size := by
  obtain ⟨stored, hstore, hcapacity, hterminates, hnull⟩ := h.store content
  have hcount := hterminates.wordCount_eq stored.capacity 0 (Nat.zero_add _) (Nat.zero_le _)
    (hcapacity.trans hbuffer)
  have hroom := h.room
  have hlength : (words ++ [content]).length = words.length + 1 := by simp
  unfold appendWord
  rw [h.terminates.wordPosition_eq array.capacity 0 (Nat.zero_add _) (Nat.zero_le _), Except.bind]
  rw [hstore, Except.bind]
  rw [updateWord, hcount, Except.bind]
  by_cases hreached : limit.reached (words ++ [content]).length bufferSize = true
  · rw [if_pos hreached, storeNulls_eq _ _ _ le_rfl]
    refine ⟨_, bufferSize + 8, rfl, ⟨?_, fun i c hc => ?_, fun i hi hlt => ?_⟩, rfl, by omega⟩
    · dsimp only
      omega
    · obtain ⟨hlt, -⟩ := List.getElem?_eq_some_iff.mp hc
      dsimp only
      rw [if_neg (by omega), if_pos (by omega)]
      exact hterminates.word i c hc
    · dsimp only at hlt ⊢
      split_ifs with hnew hold
      · rfl
      · exact hnull i (by omega) hold
      · omega
  · -- The limit is reached when one cell is left.
    have hlast : words.length + 1 ≠ bufferSize - 1 := fun heq =>
      hreached (by rw [hlength, heq]; exact limit.reached_last bufferSize hsize)
    rw [if_neg hreached]
    refine ⟨stored, bufferSize, rfl, ⟨?_, hterminates.word, fun i hi => hnull i ?_⟩, ?_, hsize⟩
    · omega
    · omega
    · exact hcapacity.trans hbuffer

end Arrays

/-! ## The words of the nodes -/

variable {b b' : Builder} {t : HeapTree} {cell : Token} {ptr : Ptr} {words : List CString}

/-- A node keeps its type and its words, or it has no words; then it had none
before, unless it is `lost`. -/
def KeepsWords (lost : Prop) (node node' : Node) : Prop :=
  node'.type = node.type ∧ node'.u = node.u ∨
    node'.type ≠ some .simpleCommand ∧ (node.type = some .simpleCommand → lost)

theorem KeepsWords.refl (lost : Prop) (node : Node) : KeepsWords lost node node :=
  .inl ⟨rfl, rfl⟩

theorem putAbove_words (c : Builder) (left : Option Ptr) (operator : Operator) (ptr : Ptr) :
    KeepsWords (c.next ≤ ptr) (c.heap ptr) ((c.putAbove left operator).heap ptr) := by
  obtain ⟨hnew, hright⟩ := putAbove_new c left operator
  by_cases hptr : ptr = c.next
  · rw [hptr, hnew]
    exact .inr ⟨by simp, fun _ => le_rfl⟩
  · by_cases hptr' : ptr = c.next + 1
    · rw [hptr', hright]
      exact .inr ⟨by simp, fun _ => Nat.le_succ _⟩
    · have hsame : (c.putAbove left operator).heap ptr = c.heap ptr := by
        simp [Builder.putAbove, Builder.write, hptr, hptr']
      rw [hsame]
      exact .refl _ _

theorem setTop_words (h : Built b t) (new : Ptr) (ptr : Ptr) :
    KeepsWords False (b.heap ptr) ((b.setTop new).heap ptr) := by
  unfold Builder.setTop
  split
  · split
    · exact .refl _ _
    · rename_i root hroot
      by_cases hptr : ptr = root
      · obtain ⟨-, htype⟩ := h.subshell_mem root hroot
        refine .inr ⟨?_, ?_⟩
        · simp [Builder.write, hptr, htype]
        · simp [hptr, htype]
      · simp only [Builder.write, Function.update_of_ne hptr]
        exact .refl _ _
  · exact .refl _ _

theorem KeepsWords.trans {lost lost' : Prop} {node node' node'' : Node}
    (h : KeepsWords lost node node') (h' : KeepsWords lost' node' node'')
    (hlost : lost → lost') : KeepsWords lost' node node'' := by
  rcases h with ⟨htype, hu⟩ | ⟨hnot, hbefore⟩
  · rcases h' with ⟨htype', hu'⟩ | ⟨hnot', hbefore'⟩
    · exact .inl ⟨htype'.trans htype, hu'.trans hu⟩
    · exact .inr ⟨hnot', fun hsimple => hbefore' (htype.trans hsimple)⟩
  · rcases h' with ⟨htype', -⟩ | ⟨hnot', -⟩
    · exact .inr ⟨htype' ▸ hnot, fun hsimple => hlost (hbefore hsimple)⟩
    · exact .inr ⟨hnot', fun hsimple => hlost (hbefore hsimple)⟩

theorem buildOperator_words (h : Built b t) {below : Operator → Bool} {operator : Operator}
    (heq : buildOperator below operator b = some b') (ptr : Ptr) :
    KeepsWords (b.next ≤ ptr) (b.heap ptr) (b'.heap ptr) := by
  obtain ⟨top, htop, rfl⟩ := Option.map_eq_some_iff.mp heq
  have habove : KeepsWords (b.next ≤ ptr) (b.heap ptr)
      (((b.setTop b.next).putAbove (some top) operator).heap ptr) := by
    have hnew := putAbove_words (b.setTop b.next) (some top) operator ptr
    rw [(setTop_next b b.next).1] at hnew
    exact (setTop_words h b.next ptr).trans hnew False.elim
  dsimp only
  split
  · rename_i topOperator htype
    split
    · have hbelow : KeepsWords False (b.heap ptr) ((b.write top { b.heap top with
          u := (b.heap top).u.setSecond (some b.next) }).heap ptr) := by
        by_cases hptr : ptr = top
        · refine .inr ⟨?_, ?_⟩
          · simp [Builder.write, hptr, htype]
          · simp [hptr, htype]
        · simp only [Builder.write, Function.update_of_ne hptr]
          exact .refl _ _
      exact hbelow.trans (putAbove_words _ _ operator ptr) False.elim
    · exact habove
  · exact habove

/-- Tokens other than words take the words of a node only for a subshell. -/
theorem buildToken_words (h : Built b t) (hword : cell.token ≠ .word)
    (heq : buildToken cell b = some b') (ptr : Ptr) :
    KeepsWords (b.next ≤ ptr ∨ ptr = b.parseCommand ∧ cell.token = .lbkt)
      (b.heap ptr) (b'.heap ptr) := by
  cases htoken : cell.token with
  | word => exact absurd htoken hword
  | lbkt =>
      simp only [buildToken, htoken, Option.some.injEq] at heq
      subst heq
      by_cases hbody : ptr = b.next
      · refine .inr ⟨?_, fun _ => .inl hbody.ge⟩
        simp [buildLbkt, Builder.write, hbody]
      · by_cases hparse : ptr = b.parseCommand
        · refine .inr ⟨?_, fun _ => .inr ⟨hparse, rfl⟩⟩
          have hne : b.parseCommand ≠ b.next := hparse ▸ hbody
          simp [buildLbkt, Builder.write, hparse, hne]
        · refine .inl ?_
          simp [buildLbkt, Builder.write, hbody, hparse]
  | pipeline | and | or | semicolon =>
      simp only [buildToken, htoken] at heq
      exact (buildOperator_words h heq ptr).trans (.refl _ _) .inl
  | rbkt =>
      simp only [buildToken, htoken, Option.some.injEq] at heq
      subst heq
      exact .refl _ _
  | input | output | null | halfAnd | endCmd | halfEndCmd =>
      simp only [buildToken, htoken, Option.some.injEq] at heq
      subst heq
      exact .refl _ _

/-- Behind a token other than a word, either a new command is due or the same is read. -/
theorem buildToken_parse (h : Built b t) (hword : cell.token ≠ .word)
    (hplain : cell.token.isRedirection = false) (heq : buildToken cell b = some b') :
    b'.pending = true ∨ b'.parseCommand = b.parseCommand := by
  obtain ⟨-, -, -, hpending, -⟩ := h.token heq hplain
  cases htoken : cell.token with
  | word => exact absurd htoken hword
  | pipeline | and | or | semicolon | lbkt =>
      rw [htoken] at hpending
      exact .inl hpending
  | rbkt | input | output | null | halfAnd | endCmd | halfEndCmd =>
      simp only [buildToken, htoken, Option.some.injEq] at heq
      subst heq
      exact .inr rfl

theorem buildRedirection_words {previous token : TokenType} {content : CString}
    (heq : buildRedirection previous token content b = some b') (ptr : Ptr) :
    (b'.heap ptr).type = (b.heap ptr).type ∧ (b'.heap ptr).u = (b.heap ptr).u := by
  obtain ⟨target, -, rfl⟩ := Option.map_eq_some_iff.mp heq
  by_cases hptr : ptr = target
  · subst hptr
    simp only [Builder.write, Function.update_self]
    unfold setRedirection
    split <;> exact ⟨rfl, rfl⟩
  · simp only [Builder.write, Function.update_of_ne hptr, and_self]

theorem buildWord_words (content : CString) (b : Builder) :
    ∃ node, buildWord content b = b.write b.parseCommand node ∧
      node.type = some .simpleCommand ∧ node.u.words =
        (if (b.heap b.parseCommand).type = some .simpleCommand
          then (b.heap b.parseCommand).u.words else []) ++ [content] := by
  unfold buildWord
  dsimp only
  by_cases hsimple : (b.heap b.parseCommand).type = some .simpleCommand
  · rw [if_pos hsimple, if_pos hsimple]
    exact ⟨_, rfl, hsimple, rfl⟩
  · rw [if_neg hsimple, if_neg hsimple]
    exact ⟨_, rfl, rfl, rfl⟩

/-! ## The arrays of a run -/

section Runs

variable {limit : WordLimit} {s s' : ArrayBuilder}

/-- Every simple command has its words in its array, and `wd_buffer_size` is the
size of the array of the command that is read. -/
structure ArraysHold (s : ArrayBuilder) : Prop where
  built : ∃ t, Built s.toBuilder t
  size : 8 ≤ s.wdBufferSize
  words : ∀ ptr, (s.heap ptr).type = some .simpleCommand →
    HoldsWords (s.heap ptr).u.words (s.wordArray ptr)
  capacity : (s.heap s.parseCommand).type = some .simpleCommand →
    (s.wordArray s.parseCommand).capacity = s.wdBufferSize

theorem startArrays_hold : ArraysHold startArrays where
  built := ⟨_, Built.start⟩
  size := le_rfl
  words _ hsimple := by cases hsimple
  capacity hsimple := by cases hsimple

theorem ArraysHold.word (h : ArraysHold s) (limit : WordLimit) (content : CString) :
    ∃ s', arrayWord limit content s = .ok s' ∧ ArraysHold s' ∧
      s'.toBuilder = buildWord content s.toBuilder := by
  set words := if (s.heap s.parseCommand).type = some .simpleCommand
    then (s.heap s.parseCommand).u.words else [] with hwords
  obtain ⟨array, harray, hholds, hcapacity⟩ : ∃ array,
      (if (s.heap s.parseCommand).type = some .simpleCommand
        then .ok (s.wordArray s.parseCommand) else initializeWord s.wdBufferSize) =
          Except.ok array ∧
        HoldsWords words array ∧ array.capacity = s.wdBufferSize := by
    rw [hwords]
    split_ifs with hsimple
    · exact ⟨_, rfl, h.words _ hsimple, h.capacity hsimple⟩
    · exact initializeWord_eq h.size
  obtain ⟨array', size, happend, hholds', hcapacity', hsize⟩ :=
    hholds.append content hcapacity h.size
  obtain ⟨node, hbuild, htype, hu⟩ := buildWord_words content s.toBuilder
  obtain ⟨t, ht⟩ := h.built
  refine ⟨{ toBuilder := buildWord content s.toBuilder
            wordArray := Function.update s.wordArray s.parseCommand array'
            wdBufferSize := size }, ?_, ?_, rfl⟩
  · unfold arrayWord
    rw [harray, Except.bind, happend]
    rfl
  · exact {
      built := ⟨t, (ht.word content).1⟩
      size := hsize
      words := fun ptr hsimple => by
        simp only [hbuild, Builder.write] at hsimple ⊢
        by_cases hptr : ptr = s.parseCommand
        · subst hptr
          rw [Function.update_self, Function.update_self, hu]
          exact hholds'
        · rw [Function.update_of_ne hptr] at hsimple ⊢
          rw [Function.update_of_ne hptr]
          exact h.words ptr hsimple
      capacity := fun _ => by
        simp only [hbuild, Builder.write, Function.update_self]
        exact hcapacity' }

/-- The other tokens leave the arrays alone. -/
theorem ArraysHold.keeps (h : ArraysHold s) (hbuilt : ∃ t, Built b' t) {lost : Ptr → Prop}
    (hkeeps : ∀ ptr, KeepsWords (lost ptr) (s.heap ptr) (b'.heap ptr))
    (hparse : b'.pending = true ∨ b'.parseCommand = s.parseCommand) :
    ArraysHold { s with toBuilder := b' } where
  built := hbuilt
  size := h.size
  words ptr hsimple := by
    rcases hkeeps ptr with ⟨htype, hu⟩ | ⟨hnot, -⟩
    · dsimp only at hsimple ⊢
      rw [hu]
      exact h.words ptr (htype.symm.trans hsimple)
    · exact absurd hsimple hnot
  capacity hsimple := by
    dsimp only at hsimple ⊢
    rcases hparse with hpending | hparse
    · have hnone : (b'.heap b'.parseCommand).type = none := of_decide_eq_true hpending
      rw [hnone] at hsimple
      cases hsimple
    · rw [hparse] at hsimple ⊢
      rcases hkeeps s.parseCommand with ⟨htype, -⟩ | ⟨hnot, -⟩
      · exact h.capacity (htype.symm.trans hsimple)
      · exact absurd hsimple hnot

theorem ArraysHold.token (h : ArraysHold s) (limit : WordLimit)
    (hplain : cell.token.isRedirection = false) :
    buildToken cell s.toBuilder = none ∧ arrayToken limit cell s = .error .unset ∨
      ∃ s', arrayToken limit cell s = .ok s' ∧
        buildToken cell s.toBuilder = some s'.toBuilder ∧ ArraysHold s' := by
  obtain ⟨t, ht⟩ := h.built
  by_cases hword : cell.token = .word
  · unfold arrayToken buildToken
    rw [hword]
    dsimp only
    cases cell.content with
    | none => exact .inl ⟨rfl, rfl⟩
    | some content =>
        obtain ⟨s', heq, hholds, hbuild⟩ := h.word limit content
        exact .inr ⟨s', heq, congrArg some hbuild.symm, hholds⟩
  · have heq : arrayToken limit cell s =
        match buildToken cell s.toBuilder with
        | none => .error .unset
        | some b => .ok { s with toBuilder := b } := by
      unfold arrayToken
      split
      · exact absurd ‹_› hword
      · rfl
    rw [heq]
    cases hbuild : buildToken cell s.toBuilder with
    | none => exact .inl ⟨rfl, rfl⟩
    | some b' =>
        obtain ⟨t', ht', -⟩ := ht.token hbuild hplain
        exact .inr ⟨_, rfl, rfl, h.keeps ⟨t', ht'⟩ (buildToken_words ht hword hbuild)
          (buildToken_parse ht hword hplain hbuild)⟩

theorem ArraysHold.tokens (h : ArraysHold s) (limit : WordLimit) (previous : TokenType)
    (cells : List Token) :
    buildTokens previous cells s.toBuilder = none ∧
        arrayTokens limit previous cells s = .error .unset ∨
      ∃ s', arrayTokens limit previous cells s = .ok s' ∧
        buildTokens previous cells s.toBuilder = some s'.toBuilder ∧ ArraysHold s' := by
  -- The cells are taken as `completeFrom` takes them; its flag plays no part.
  obtain ⟨pending⟩ : Nonempty Bool := ⟨true⟩
  induction pending, cells using completeFrom.induct generalizing s previous with
  | case1 pending => exact .inr ⟨s, rfl, rfl, h⟩
  | case2 pending cell hredirects =>
      refine .inl ⟨?_, ?_⟩
      · simp [buildTokens, hredirects]
      · simp [arrayTokens, hredirects]
  | case3 pending cell hredirects operand cells ih =>
      simp only [buildTokens, arrayTokens, hredirects, if_true]
      cases operand.content with
      | none => exact .inl ⟨rfl, rfl⟩
      | some content =>
          simp only [Option.bind_some]
          cases hbuild : buildRedirection previous cell.token content s.toBuilder with
          | none => exact .inl ⟨rfl, rfl⟩
          | some b' =>
              obtain ⟨t, ht⟩ := h.built
              obtain ⟨hbuilt, -, -, -⟩ := ht.redirection hbuild
              have hparse : b'.parseCommand = s.parseCommand := by
                obtain ⟨-, -, rfl⟩ := Option.map_eq_some_iff.mp hbuild
                rfl
              have hsame : ∀ ptr, KeepsWords False (s.heap ptr) (b'.heap ptr) :=
                fun ptr => .inl (buildRedirection_words hbuild ptr)
              exact ih (h.keeps ⟨t, hbuilt⟩ hsame (.inr hparse)) operand.token
  | case4 pending cell cells hplain ih =>
      have hplain' : cell.token.isRedirection = false := by simpa using hplain
      have hrun : arrayTokens limit previous (cell :: cells) s =
          (arrayToken limit cell s).bind (arrayTokens limit cell.token cells) := by
        cases cells <;> simp [arrayTokens, hplain']
      rw [buildTokens_of_plain hplain', hrun]
      rcases h.token limit hplain' with ⟨hnone, herror⟩ | ⟨s₁, heq, hbuild, hholds⟩
      · rw [hnone, herror]
        exact .inl ⟨rfl, rfl⟩
      · rw [heq, hbuild]
        exact ih hholds cell.token

end Runs

/-! ## The words of one command -/

/-- Whether a word behind these tokens starts a new command. -/
def pendingFrom : Bool → List Token → Bool
  | pending, [] => pending
  | pending, cell :: cells =>
      if cell.token.isRedirection then
        match cells with
        | [] => false
        | _ :: cells => pendingFrom pending cells
      else pendingFrom (cell.token.pendingAfter pending) cells

/-- The words, if there are only words and redirections. -/
def simpleWords : List Token → Option (List CString)
  | [] => some []
  | cell :: cells =>
      if cell.token.isRedirection then
        match cells with
        | [] => none
        | _ :: cells => simpleWords cells
      else if cell.token = .word then
        cell.content.bind fun content => (simpleWords cells).map (content :: ·)
      else none

/-- No word and no `(` comes before the next operator. -/
def endsWords : List Token → Bool
  | [] => true
  | cell :: cells =>
      if cell.token.isRedirection then
        match cells with
        | [] => true
        | _ :: cells => endsWords cells
      else cell.token.separates ||
        (cell.token ≠ .word && cell.token ≠ .lbkt && endsWords cells)

/-- The words of the command that is read -/
def Builder.wordsRead (b : Builder) : List CString :=
  if (b.heap b.parseCommand).type = some .simpleCommand
  then (b.heap b.parseCommand).u.words else []

section Tokens

variable {previous : TokenType} {cells before simple after rest : List Token}

/-- A redirection takes its operand, and the rest is built behind it. -/
theorem buildTokens_redirects {operand : Token} (h : Built b t)
    (hredirects : cell.token.isRedirection = true)
    (heq : buildTokens previous (cell :: operand :: cells) b = some b') :
    ∃ content b₁, operand.content = some content ∧
      buildRedirection previous cell.token content b = some b₁ ∧ Built b₁ t ∧
      b₁.parseCommand = b.parseCommand ∧ buildTokens operand.token cells b₁ = some b' := by
  simp only [buildTokens, hredirects, if_true] at heq
  obtain ⟨content, hcontent, heq⟩ := Option.bind_eq_some_iff.mp heq
  obtain ⟨b₁, hbuild, heq⟩ := Option.bind_eq_some_iff.mp heq
  obtain ⟨hbuilt, -⟩ := h.redirection hbuild
  have hparse : b₁.parseCommand = b.parseCommand := by
    obtain ⟨-, -, rfl⟩ := Option.map_eq_some_iff.mp hbuild
    rfl
  exact ⟨content, b₁, hcontent, hbuild, hbuilt, hparse, heq⟩

/-- Any other token is built, and then the rest. -/
theorem buildTokens_token (h : Built b t) (hplain : cell.token.isRedirection = false)
    (heq : buildTokens previous (cell :: cells) b = some b') :
    ∃ b₁ t₁, buildToken cell b = some b₁ ∧ Built b₁ t₁ ∧
      buildTokens cell.token cells b₁ = some b' := by
  rw [buildTokens_of_plain hplain] at heq
  obtain ⟨b₁, hbuild, heq⟩ := Option.bind_eq_some_iff.mp heq
  obtain ⟨t₁, hbuilt, -⟩ := h.token hbuild hplain
  exact ⟨b₁, t₁, hbuild, hbuilt, heq⟩

theorem buildTokens_due (h : Built b t) (hdue : pendingFrom b.pending before = true)
    (heq : buildTokens previous (before ++ rest) b = some b') :
    ∃ b₁ t₁ previous', buildTokens previous before b = some b₁ ∧ Built b₁ t₁ ∧
      b₁.pending = true ∧ buildTokens previous' rest b₁ = some b' := by
  generalize hpending : b.pending = pending at hdue
  induction pending, before using pendingFrom.induct generalizing b t previous with
  | case1 pending => exact ⟨b, t, previous, rfl, h, hpending.trans hdue, heq⟩
  | case2 pending cell hredirects => simp [pendingFrom, hredirects] at hdue
  | case3 pending cell hredirects operand cells ih =>
      simp only [pendingFrom, hredirects, if_true] at hdue
      obtain ⟨content, b₁, hcontent, hbuild, hbuilt, -, heq⟩ :=
        buildTokens_redirects h hredirects heq
      obtain ⟨-, -, hsame, -⟩ := h.redirection hbuild
      simp only [buildTokens, hredirects, if_true, hcontent, hbuild, Option.bind_some]
      exact ih hbuilt heq (hsame.trans hpending) hdue
  | case4 pending cell cells hplain ih =>
      have hplain' : cell.token.isRedirection = false := by simpa using hplain
      have hdue' : pendingFrom (cell.token.pendingAfter pending) cells = true := by
        cases cells <;> simpa [pendingFrom, hplain'] using hdue
      rw [List.cons_append, buildTokens_of_plain hplain'] at heq
      obtain ⟨b₁, hbuild, heq⟩ := Option.bind_eq_some_iff.mp heq
      obtain ⟨t₁, hbuilt, -, hnext, -⟩ := h.token hbuild hplain'
      rw [buildTokens_of_plain hplain', hbuild, Option.bind_some]
      exact ih hbuilt heq (by rw [hnext, hpending]) hdue'

theorem buildTokens_words (h : Built b t) {words : List CString}
    (hwords : simpleWords simple = some words)
    (heq : buildTokens previous (simple ++ rest) b = some b') :
    ∃ b₁ t₁ previous', Built b₁ t₁ ∧ b₁.parseCommand = b.parseCommand ∧
      buildTokens previous' rest b₁ = some b' ∧ b₁.wordsRead = b.wordsRead ++ words ∧
      (words ≠ [] ∨ (b.heap b.parseCommand).type = some .simpleCommand →
        (b₁.heap b.parseCommand).type = some .simpleCommand) := by
  induction simple using simpleWords.induct generalizing b t previous words with
  | case1 =>
      obtain rfl := Option.some.inj hwords
      exact ⟨b, t, previous, h, rfl, heq, by simp, fun hor => hor.resolve_left (by simp)⟩
  | case2 cell hredirects => simp [simpleWords, hredirects] at hwords
  | case3 cell hredirects operand cells ih =>
      simp only [simpleWords, hredirects, if_true] at hwords
      obtain ⟨content, b₁, -, hbuild, hbuilt, hparse, heq⟩ :=
        buildTokens_redirects h hredirects heq
      obtain ⟨htype, hu⟩ := buildRedirection_words hbuild b.parseCommand
      have hread : b₁.wordsRead = b.wordsRead := by
        rw [Builder.wordsRead, Builder.wordsRead, hparse, htype, hu]
      obtain ⟨b₂, t₂, previous', hbuilt₂, hparse₂, heq₂, hread₂, htype₂⟩ :=
        ih hbuilt hwords heq
      refine ⟨b₂, t₂, previous', hbuilt₂, hparse₂.trans hparse, heq₂, ?_, ?_⟩
      · rw [hread₂, hread]
      · rwa [hparse, htype] at htype₂
  | case4 cell cells hplain hword ih =>
      have hplain' : cell.token.isRedirection = false := by simpa using hplain
      have hsplit : simpleWords (cell :: cells) =
          cell.content.bind fun content => (simpleWords cells).map (content :: ·) := by
        cases cells <;> simp [simpleWords, hword, TokenType.isRedirection]
      rw [hsplit] at hwords
      obtain ⟨content, hcontent, hwords⟩ := Option.bind_eq_some_iff.mp hwords
      obtain ⟨words, hrest, rfl⟩ := Option.map_eq_some_iff.mp hwords
      rw [List.cons_append, buildTokens_of_plain hplain'] at heq
      simp only [buildToken, hword, hcontent, Option.map_some, Option.bind_some] at heq
      obtain ⟨node, hbuild, hsimple, hu⟩ := buildWord_words content b
      have hparse : (buildWord content b).parseCommand = b.parseCommand := by
        rw [hbuild]
        rfl
      have hnode : (buildWord content b).heap b.parseCommand = node := by
        rw [hbuild]
        exact Function.update_self ..
      have htype : ((buildWord content b).heap b.parseCommand).type = some .simpleCommand := by
        rw [hnode]
        exact hsimple
      have hread : (buildWord content b).wordsRead = b.wordsRead ++ [content] := by
        rw [Builder.wordsRead, hparse, if_pos htype, hnode]
        exact hu
      obtain ⟨b₂, t₂, previous', hbuilt₂, hparse₂, heq₂, hread₂, htype₂⟩ :=
        ih (h.word content).1 hrest heq
      refine ⟨b₂, t₂, previous', hbuilt₂, hparse₂.trans hparse, heq₂, ?_, fun _ => ?_⟩
      · rw [hread₂, hread, List.append_assoc, List.singleton_append]
      · rw [hparse] at htype₂
        exact htype₂ (.inr htype)
  | case5 cell cells hplain hword =>
      have hnone : simpleWords (cell :: cells) = none := by
        cases cells <;> simp_all [simpleWords]
      rw [hnone] at hwords
      cases hwords

/-- A simple command keeps its words when another one is read. -/
theorem buildTokens_far (h : Built b t) (hfar : Apart ptr b)
    (hsimple : (b.heap ptr).type = some .simpleCommand)
    (heq : buildTokens previous cells b = some b') :
    (b'.heap ptr).type = some .simpleCommand ∧ (b'.heap ptr).u = (b.heap ptr).u := by
  obtain ⟨pending⟩ : Nonempty Bool := ⟨true⟩
  induction pending, cells using completeFrom.induct generalizing b t previous with
  | case1 pending =>
      obtain rfl := Option.some.inj heq
      exact ⟨hsimple, rfl⟩
  | case2 pending cell hredirects => simp [buildTokens, hredirects] at heq
  | case3 pending cell hredirects operand cells ih =>
      obtain ⟨content, b₁, -, hbuild, hbuilt, -, heq⟩ :=
        buildTokens_redirects h hredirects heq
      obtain ⟨htype, hu⟩ := buildRedirection_words hbuild ptr
      rw [← hu]
      exact ih hbuilt (buildRedirection_apart hfar hbuild).1 (htype.trans hsimple) heq
  | case4 pending cell cells hplain ih =>
      obtain ⟨b₁, t₁, hbuild, hbuilt, heq⟩ :=
        buildTokens_token h (Bool.eq_false_iff.mpr hplain) heq
      have hapart := (buildToken_apart hfar hbuild).1
      have hsame : (b₁.heap ptr).type = (b.heap ptr).type ∧ (b₁.heap ptr).u = (b.heap ptr).u := by
        by_cases hword : cell.token = .word
        · simp only [buildToken, hword] at hbuild
          obtain ⟨content, -, rfl⟩ := Option.map_eq_some_iff.mp hbuild
          obtain ⟨node, hwrite, -⟩ := buildWord_words content b
          have hnode : (buildWord content b).heap ptr = b.heap ptr := by
            rw [hwrite]
            exact Function.update_of_ne hfar.parse ..
          rw [hnode]
          exact ⟨rfl, rfl⟩
        · rcases buildToken_words h hword hbuild ptr with hsame | ⟨-, hlost⟩
          · exact hsame
          · have hlt := hfar.lt
            rcases hlost hsimple with hge | ⟨hparse, -⟩
            · exact absurd hlt (not_lt.mpr hge)
            · exact absurd hparse hfar.parse
      rw [← hsame.2]
      exact ih hbuilt hapart (hsame.1.trans hsimple) heq

/-- A simple command keeps its words up to the next operator and behind it. -/
theorem buildTokens_ends (h : Built b t) (hends : endsWords cells = true)
    (hsimple : (b.heap b.parseCommand).type = some .simpleCommand)
    (heq : buildTokens previous cells b = some b') :
    (b'.heap b.parseCommand).type = some .simpleCommand ∧
      (b'.heap b.parseCommand).u = (b.heap b.parseCommand).u := by
  induction cells using endsWords.induct generalizing b t previous with
  | case1 =>
      obtain rfl := Option.some.inj heq
      exact ⟨hsimple, rfl⟩
  | case2 cell hredirects => simp [buildTokens, hredirects] at heq
  | case3 cell hredirects operand cells ih =>
      simp only [endsWords, hredirects, if_true] at hends
      obtain ⟨content, b₁, -, hbuild, hbuilt, hparse, heq⟩ :=
        buildTokens_redirects h hredirects heq
      obtain ⟨htype, hu⟩ := buildRedirection_words hbuild b.parseCommand
      rw [← hu, ← hparse]
      exact ih hbuilt hends (by rw [hparse, htype, hsimple]) heq
  | case4 cell cells hplain ih =>
      have hplain' : cell.token.isRedirection = false := by simpa using hplain
      have hends' : (cell.token.separates ||
          (cell.token ≠ .word && cell.token ≠ .lbkt && endsWords cells)) = true := by
        cases cells <;> simpa [endsWords, hplain'] using hends
      obtain ⟨b₁, t₁, hbuild, hbuilt, heq⟩ := buildTokens_token h hplain' heq
      have hlt : b.parseCommand < b.next := h.bound _ h.parse_mem
      have hoperator : ∀ below operator, buildOperator below operator b = some b₁ →
          (b'.heap b.parseCommand).type = some .simpleCommand ∧
            (b'.heap b.parseCommand).u = (b.heap b.parseCommand).u := by
        intro below operator hbuild
        obtain ⟨hnext, hparse⟩ := buildOperator_next hbuild
        rcases buildOperator_words h hbuild b.parseCommand with ⟨htype, hu⟩ | ⟨-, hlost⟩
        · have hfar : Apart b.parseCommand b₁ := by
            refine ⟨?_, ?_⟩
            · rw [hnext]
              exact Nat.lt_add_right 2 hlt
            · rw [hparse]
              exact (Nat.lt_succ_of_lt hlt).ne
          rw [← hu]
          exact buildTokens_far hbuilt hfar (htype.trans hsimple) heq
        · exact absurd hlt (not_lt.mpr (hlost hsimple))
      cases htoken : cell.token with
      | word | lbkt => simp [htoken, TokenType.separates] at hends'
      | pipeline | and | or | semicolon =>
          simp only [buildToken, htoken] at hbuild
          exact hoperator _ _ hbuild
      | input | output => simp [htoken, TokenType.isRedirection] at hplain
      | rbkt | null | halfAnd | endCmd | halfEndCmd =>
          simp only [buildToken, htoken, Option.some.injEq] at hbuild
          subst hbuild
          simp only [htoken, TokenType.separates, decide_false, reduceCtorEq, Bool.false_or,
            ne_eq, not_false_eq_true, decide_true, Bool.true_and] at hends'
          have hrest := ih hbuilt hends' hsimple heq
          exact hrest

end Tokens

/--
No call leaves the arrays, and in every call that returns the array of each simple
command holds exactly its words and a null pointer.
-/
theorem argumentVectors (limit : WordLimit) :
    (∀ tokens, arrayTokens limit .null tokens startArrays ≠ .error .outOfBounds) ∧
      ∀ tokens b, buildTokens .null tokens startBuilder = some b →
        ∃ s, arrayTokens limit .null tokens startArrays = .ok s ∧ s.toBuilder = b ∧
          (∀ ptr, (b.heap ptr).type = some .simpleCommand →
            Terminates (b.heap ptr).u.words (s.wordArray ptr)) ∧
          ∀ before simple after words, tokens = before ++ (simple ++ after) →
            pendingFrom true before = true → simpleWords simple = some words → words ≠ [] →
            endsWords after = true →
            ∃ b₁, buildTokens .null before startBuilder = some b₁ ∧
              (b.heap b₁.parseCommand).type = some .simpleCommand ∧
              Terminates words (s.wordArray b₁.parseCommand) := by
  have hrun := fun tokens => startArrays_hold.tokens limit .null tokens
  constructor
  · intro tokens herror
    rcases hrun tokens with ⟨-, hunset⟩ | ⟨s, hok, -⟩
    · rw [hunset] at herror
      cases herror
    · rw [hok] at herror
      cases herror
  · intro tokens b hbuild
    obtain ⟨s, hok, hsame, hholds⟩ := (hrun tokens).resolve_left fun hnone => by
      have hnone' := hnone.1
      rw [show startArrays.toBuilder = startBuilder from rfl, hbuild] at hnone'
      cases hnone'
    obtain rfl : b = s.toBuilder := Option.some.inj (hbuild.symm.trans hsame)
    refine ⟨s, hok, rfl, fun ptr hsimple => (hholds.words ptr hsimple).terminates, ?_⟩
    intro before simple after words htokens hdue hwords hne hends
    rw [htokens] at hbuild
    obtain ⟨b₁, t₁, previous, hbefore, hbuilt₁, hpending, hrest⟩ :=
      buildTokens_due Built.start hdue hbuild
    obtain ⟨b₂, t₂, previous', hbuilt₂, hparse, hafter, hread, htype⟩ :=
      buildTokens_words hbuilt₁ hwords hrest
    have hsimple := htype (.inl hne)
    have hnone : (b₁.heap b₁.parseCommand).type = none := of_decide_eq_true hpending
    rw [← hparse] at hsimple
    obtain ⟨hsimple', hu⟩ := buildTokens_ends hbuilt₂ hends hsimple hafter
    have hwords' : (s.heap b₁.parseCommand).u.words = words := by
      rw [← hparse, hu]
      rw [Builder.wordsRead, if_pos hsimple, Builder.wordsRead, hnone, if_neg (by simp)] at hread
      exact hread
    rw [hparse] at hsimple'
    refine ⟨b₁, hbefore, hsimple', ?_⟩
    rw [← hwords']
    exact (hholds.words _ hsimple').terminates

/-- `wd_buffer_lim = 0.8` without rounding -/
def wdBufferLim : WordLimit where
  reached size bufferSize := 4 * bufferSize ≤ 5 * size
  reached_last size hsize := by
    simp only [decide_eq_true_eq]
    omega

/-- Nine words, which need a second enlargement, and a command behind a `|` -/
theorem argumentVectors_pipeline :
    ∃ s, arrayTokens wdBufferLim .null (List.replicate 9 ⟨.word, some [97]⟩ ++
        ([⟨.pipeline, none⟩, ⟨.word, some [98]⟩] ++ [⟨.endCmd, none⟩])) startArrays = .ok s ∧
      Terminates (List.replicate 9 [97]) (s.wordArray 0) := by
  obtain ⟨b, hbuild⟩ := Option.isSome_iff_exists.mp (show (buildTokens .null
    (List.replicate 9 ⟨.word, some [97]⟩ ++
      ([⟨.pipeline, none⟩, ⟨.word, some [98]⟩] ++ [⟨.endCmd, none⟩])) startBuilder).isSome = true
    by decide +kernel)
  obtain ⟨s, hok, -, -, hwords⟩ := (argumentVectors wdBufferLim).2 _ b hbuild
  obtain ⟨b₁, hbefore, -, hterminates⟩ :=
    hwords [] (List.replicate 9 ⟨.word, some [97]⟩)
      ([⟨.pipeline, none⟩, ⟨.word, some [98]⟩] ++ [⟨.endCmd, none⟩]) (List.replicate 9 [97])
      rfl rfl (by decide) (by decide) (by decide)
  obtain rfl := Option.some.inj hbefore
  exact ⟨s, hok, hterminates⟩

end Cs111Labs.Shell
