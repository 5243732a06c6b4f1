import Cs111Labs.Peer.RoundTrip
import Mathlib.Data.Nat.Digits.Lemmas

/-!
# The buffer of a message

`osp2p_writef` has its buffer enlarged before each conversion.  The NULs that
`strcpy` and `sprintf` put behind a text are not counted in what it asks for.
-/

namespace Cs111Labs.Peer

/-- A byte is stored at this place of an object of this size. -/
structure Store where
  place : Nat
  capacity : Nat
  deriving DecidableEq, Repr

def storesAt (start capacity : Nat) (bytes : List UInt8) : List Store :=
  (List.range bytes.length).map fun i => ⟨start + i, capacity⟩

/-- A turn of the loop, with the argument that it takes. -/
inductive Turn where
  | string (s : List UInt8)
  | integer (i : Int)
  | address (a : BitVec 32)
  | byte (c : UInt8)
  deriving DecidableEq, Repr

namespace Turn

def text : Turn → List UInt8
  | string s => httpQuote s
  | integer i => printInt i
  | address a => inetNtoa a
  | byte c => [c]

/-- What is stored: `strcpy` and `sprintf` add a NUL. -/
def stored : Turn → List UInt8
  | byte c => [c]
  | turn => turn.text ++ [0]

/-- What `ensure_buf` is asked for, besides `len`. -/
def amount : Turn → Nat
  | string s => (httpQuote s).length
  | integer _ => 10
  | address _ => 16
  | byte _ => 1

end Turn

/-- The turns for a format, up to an argument that does not fit, and whether all do. -/
def turns : List UInt8 → List Value → List Turn × Bool
  | [], _ => ([], true)
  | percent :: letterS :: format, .string s :: values =>
      (.string s :: (turns format values).1, (turns format values).2)
  | percent :: letterD :: format, .integer i :: values =>
      (.integer i :: (turns format values).1, (turns format values).2)
  | percent :: letterI :: format, .address a :: values =>
      (.address a :: (turns format values).1, (turns format values).2)
  | percent :: letterS :: _, _ | percent :: letterD :: _, _ | percent :: letterI :: _, _ =>
      ([], false)
  | percent :: percent :: format, values =>
      (.byte percent :: (turns format values).1, (turns format values).2)
  | c :: format, values => (.byte c :: (turns format values).1, (turns format values).2)

/-- The state of the loop: the number of allocations so far, `len` and `capacity`. -/
structure Building where
  calls : Nat
  len : Nat
  capacity : Nat
  deriving DecidableEq, Repr

/-- `memory` tells which allocations succeed. -/
def ensureBuf (memory : Nat → Bool) (amount : Nat) (b : Building) : Option Building :=
  if b.capacity ≤ b.len + amount then
    if memory b.calls then
      some { b with calls := b.calls + 1, capacity := b.len + amount + 2048 }
    else none
  else some b

/-- `http_quote` stores in an object of its own. -/
def quoteStores (s : List UInt8) : List Store :=
  storesAt 0 (3 * (s.takeWhile (· ≠ 0)).length + 1) (httpQuote s ++ [0])

/-- The stores of a turn behind those of `http_quote`. -/
def appendText (memory : Nat → Bool) (turn : Turn) (b : Building) :
    List Store × Option Building :=
  match ensureBuf memory turn.amount b with
  | none => ([], none)
  | some b =>
      (storesAt b.len b.capacity turn.stored, some { b with len := b.len + turn.text.length })

/-- The stores of a turn, and the state behind it.  Where `http_quote` fails, `strlen` gets
its null pointer, and nothing more is stored. -/
def Turn.run (memory : Nat → Bool) (b : Building) : Turn → List Store × Option Building
  | string s =>
      if memory b.calls then
        let (stores, next) := appendText memory (string s) { b with calls := b.calls + 1 }
        (quoteStores s ++ stores, next)
      else ([], none)
  | turn => appendText memory turn b

def runTurns (memory : Nat → Bool) : List Turn → Building → List Store × Option Building
  | [], b => ([], some b)
  | turn :: turns, b =>
      match turn.run memory b with
      | (stores, none) => (stores, none)
      | (stores, some b) =>
          (stores ++ (runTurns memory turns b).1, (runTurns memory turns b).2)

/-- The stores of `osp2p_writef`. -/
def writefStores (memory : Nat → Bool) (format : List UInt8) (values : List Value) : List Store :=
  match ensureBuf memory 1024 ⟨0, 0, 0⟩ with
  | none => []
  | some b => (runTurns memory (turns format values).1 b).1

def StoresInside (stores : List Store) : Prop := ∀ s ∈ stores, s.place < s.capacity

/-- The command string is put together from the texts of the turns. -/
theorem command_eq_turns (format : List UInt8) (values : List Value) :
    command format values =
      if (turns format values).2 then some ((turns format values).1.flatMap Turn.text)
      else none := by
  fun_induction turns format values with
  | case1 => rfl
  | case2 s format values ih | case3 i format values ih | case4 a format values ih
  | case8 format values ih =>
      rw [command, ih]
      split_ifs <;> rfl
  | case5 => rw [command] <;> first | rfl | assumption
  | case6 => rw [command] <;> first | rfl | assumption
  | case7 => rw [command] <;> first | rfl | assumption
  | case9 c format values _ _ _ _ _ _ _ ih =>
      rw [command, ih]
      · split_ifs <;> rfl
      all_goals assumption

/-! ## The lengths of the texts -/

theorem length_httpQuote_le (s : List UInt8) :
    (httpQuote s).length ≤ 3 * (s.takeWhile (· ≠ 0)).length := by
  induction s with
  | nil => rfl
  | cons c s ih =>
      rw [httpQuote]
      by_cases hzero : c = 0
      · simp [hzero]
      · rw [if_neg hzero, List.takeWhile_cons_of_pos (by simpa using hzero)]
        split_ifs <;> simp only [List.length_cons] <;> omega

/-- A number has at most `k` digits. -/
theorem length_decimal_le_iff {n k : Nat} (hk : 0 < k) :
    (decimal n).length ≤ k ↔ n < 10 ^ k := by
  rw [length_decimal, digits]
  split_ifs with hzero
  · simp [hzero, Nat.succ_le_of_lt hk]
  · exact Nat.digits_length_le_iff (by decide) n

theorem length_printInt_le {i : Int} (hi : -(2 ^ 31) ≤ i ∧ i < 2 ^ 31) :
    (printInt i).length ≤ 11 := by
  cases i with
  | ofNat n =>
      have hle := (length_decimal_le_iff (n := n) (k := 10) (by decide)).2
        (by simp at hi; omega)
      simp only [printInt]
      omega
  | negSucc n =>
      have hle := (length_decimal_le_iff (n := n + 1) (k := 10) (by decide)).2 (by omega)
      simp only [printInt, List.length_cons]
      omega

/-- The numbers with a minus sign and ten digits. -/
theorem length_printInt_le_ten_iff {i : Int} (hi : -(2 ^ 31) ≤ i ∧ i < 2 ^ 31) :
    (printInt i).length ≤ 10 ↔ -1000000000 < i := by
  cases i with
  | ofNat n =>
      have hle := (length_decimal_le_iff (n := n) (k := 10) (by decide)).2
        (by simp at hi; omega)
      refine iff_of_true hle ?_
      simp
      omega
  | negSucc n =>
      have hle := length_decimal_le_iff (n := n + 1) (k := 9) (by decide)
      simp only [printInt, List.length_cons]
      omega

theorem length_inetNtoa_le (a : BitVec 32) : (inetNtoa a).length ≤ 15 := by
  have hoctet : ∀ i, (decimal (octet a i)).length ≤ 3 := fun i =>
    (length_decimal_le_iff (by decide)).2 (by have := octet_le a i; omega)
  have h0 := hoctet 0
  have h1 := hoctet 1
  have h2 := hoctet 2
  have h3 := hoctet 3
  rw [length_inetNtoa]
  omega

/-! ## The capacity -/

/-- `ensure_buf` where there is memory. -/
def grow (amount : Nat) (b : Building) : Building :=
  if b.capacity ≤ b.len + amount then
    { b with calls := b.calls + 1, capacity := b.len + amount + 2048 }
  else b

/-- The state behind a turn for which there is memory. -/
def Turn.after (b : Building) (turn : Turn) : Building :=
  let b := match turn with
    | string _ => { b with calls := b.calls + 1 }
    | _ => b
  { grow turn.amount b with len := b.len + turn.text.length }

def built (b : Building) (turns : List Turn) : Building := turns.foldl Turn.after b

/-- The allocations between the two states succeed. -/
def Allocates (memory : Nat → Bool) (b b' : Building) : Prop :=
  ∀ call, b.calls ≤ call → call < b'.calls → memory call = true

/-- A number with eleven characters is printed into a buffer that ends eleven
characters later. -/
def Overruns (memory : Nat → Bool) (b : Building) (turns : List Turn) : Prop :=
  ∃ before i after, turns = before ++ .integer i :: after ∧ i ≤ -1000000000 ∧
    (built b before).capacity = (built b before).len + 11 ∧ Allocates memory b (built b before)

section Turns

variable {memory : Nat → Bool} {amount : Nat} {b b' : Building} {turn : Turn}

theorem ensureBuf_eq (memory : Nat → Bool) (amount : Nat) (b : Building) :
    Allocates memory b (grow amount b) ∧ ensureBuf memory amount b = some (grow amount b) ∨
      ¬ Allocates memory b (grow amount b) ∧ ensureBuf memory amount b = none := by
  unfold ensureBuf grow
  split_ifs with hsmall hmemory
  · refine .inl ⟨fun call hle hlt => ?_, rfl⟩
    obtain rfl : call = b.calls := by
      change call < b.calls + 1 at hlt
      omega
    exact hmemory
  · exact .inr ⟨fun h => hmemory (h b.calls le_rfl (Nat.lt_succ_self _)), rfl⟩
  · exact .inl ⟨fun call hle hlt => absurd hle (by omega), rfl⟩

/-- There is one place more than what was asked for. -/
theorem lt_grow (amount : Nat) (b : Building) :
    b.len + amount < (grow amount b).capacity ∧ (grow amount b).len = b.len ∧
      b.calls ≤ (grow amount b).calls := by
  unfold grow
  split_ifs with hsmall
  · exact ⟨by change _ < b.len + amount + 2048; omega, rfl, Nat.le_succ _⟩
  · exact ⟨by omega, rfl, le_rfl⟩

theorem storesInside_storesAt {start capacity : Nat} {bytes : List UInt8} (hbytes : bytes ≠ []) :
    StoresInside (storesAt start capacity bytes) ↔ start + bytes.length ≤ capacity := by
  have hpos := List.length_pos_iff.mpr hbytes
  constructor
  · intro h
    have hlast := h ⟨start + (bytes.length - 1), capacity⟩
      (List.mem_map.mpr ⟨bytes.length - 1, List.mem_range.mpr (by omega), rfl⟩)
    simp only at hlast
    omega
  · intro hle store hstore
    obtain ⟨i, hi, rfl⟩ := List.mem_map.mp hstore
    rw [List.mem_range] at hi
    simp only
    omega

theorem storesInside_append {stores stores' : List Store} :
    StoresInside (stores ++ stores') ↔ StoresInside stores ∧ StoresInside stores' :=
  List.forall_mem_append

theorem quoteStores_inside (s : List UInt8) : StoresInside (quoteStores s) := by
  have hle := length_httpQuote_le s
  rw [quoteStores, storesInside_storesAt (by simp), List.length_append]
  simp only [List.length_singleton]
  omega

/-- Only a number may take more than what it has asked for. -/
theorem stored_inside_iff (hint : ∀ i, turn = .integer i → -(2 ^ 31) ≤ i ∧ i < 2 ^ 31)
    (b : Building) :
    StoresInside (storesAt (grow turn.amount b).len (grow turn.amount b).capacity turn.stored) ↔
      ¬ ∃ i, turn = .integer i ∧ i ≤ -1000000000 ∧ b.capacity = b.len + 11 := by
  obtain ⟨hroom, hlen, -⟩ := lt_grow turn.amount b
  have hne : turn.stored ≠ [] := by cases turn <;> simp [Turn.stored]
  rw [storesInside_storesAt hne, hlen]
  cases turn with
  | string s =>
      refine iff_of_true ?_ (by simp)
      simp only [Turn.stored, Turn.text, Turn.amount, List.length_append,
        List.length_singleton] at hroom ⊢
      omega
  | address a =>
      have hle := length_inetNtoa_le a
      refine iff_of_true ?_ (by simp)
      simp only [Turn.stored, Turn.text, Turn.amount, List.length_append,
        List.length_singleton] at hroom ⊢
      omega
  | byte c =>
      refine iff_of_true ?_ (by simp)
      simp only [Turn.stored, Turn.amount, List.length_singleton] at hroom ⊢
      omega
  | integer i =>
      have hle := length_printInt_le (hint i rfl)
      have hten := length_printInt_le_ten_iff (hint i rfl)
      simp only [Turn.stored, Turn.text, Turn.amount, List.length_append, List.length_singleton,
        Turn.integer.injEq, exists_eq_left'] at hroom ⊢
      by_cases hsmall : b.capacity ≤ b.len + 10
      · have hgrown : (grow 10 b).capacity = b.len + 10 + 2048 := by rw [grow, if_pos hsmall]
        omega
      · have hkept : (grow 10 b).capacity = b.capacity := by rw [grow, if_neg hsmall]
        omega

/-- The text is put into the buffer if there is memory for it. -/
theorem appendText_cases (memory : Nat → Bool) (b : Building)
    (hint : ∀ i, turn = .integer i → -(2 ^ 31) ≤ i ∧ i < 2 ^ 31) :
    Allocates memory b (grow turn.amount b) ∧
        (appendText memory turn b).2 =
          some { grow turn.amount b with len := b.len + turn.text.length } ∧
        (StoresInside (appendText memory turn b).1 ↔
          ¬ ∃ i, turn = .integer i ∧ i ≤ -1000000000 ∧ b.capacity = b.len + 11) ∨
      ¬ Allocates memory b (grow turn.amount b) ∧ appendText memory turn b = ([], none) := by
  unfold appendText
  rcases ensureBuf_eq memory turn.amount b with ⟨hmemory, hbuf⟩ | ⟨hmemory, hbuf⟩
  · rw [hbuf]
    refine .inl ⟨hmemory, ?_, stored_inside_iff hint b⟩
    rw [← (lt_grow turn.amount b).2.1]
  · rw [hbuf]
    exact .inr ⟨hmemory, rfl⟩

theorem storesInside_nil : StoresInside [] := by simp [StoresInside]

/-- A turn: what it needs of memory, and when it stores outside. -/
theorem Turn.run_cases (memory : Nat → Bool) (b : Building)
    (hint : ∀ i, turn = .integer i → -(2 ^ 31) ≤ i ∧ i < 2 ^ 31) :
    Allocates memory b (turn.after b) ∧ (turn.run memory b).2 = some (turn.after b) ∧
        (StoresInside (turn.run memory b).1 ↔
          ¬ ∃ i, turn = .integer i ∧ i ≤ -1000000000 ∧ b.capacity = b.len + 11) ∨
      ¬ Allocates memory b (turn.after b) ∧ (turn.run memory b).2 = none ∧
        StoresInside (turn.run memory b).1 := by
  cases turn with
  | string s =>
      have hnone : ¬ ∃ i, string s = .integer i ∧ i ≤ -1000000000 ∧ b.capacity = b.len + 11 := by
        simp
      have hfirst : b.calls < (after b (string s)).calls :=
        (lt_grow (string s).amount { b with calls := b.calls + 1 }).2.2
      by_cases hquote : memory b.calls = true
      · have hcalls : Allocates memory b (after b (string s)) ↔
            Allocates memory { b with calls := b.calls + 1 } (after b (string s)) := by
          refine ⟨fun h call hle hlt => h call (Nat.le_of_succ_le hle) hlt, fun h call hle hlt => ?_⟩
          rcases hle.eq_or_lt with rfl | hlater
          · exact hquote
          · exact h call hlater hlt
        rw [hcalls, run, if_pos hquote]
        rcases @appendText_cases (string s) memory { b with calls := b.calls + 1 } hint with
          ⟨hmemory, hnext, hstores⟩ | ⟨hmemory, hnext⟩
        · refine .inl ⟨hmemory, hnext, iff_of_true ?_ hnone⟩
          exact storesInside_append.mpr ⟨quoteStores_inside s, hstores.mpr hnone⟩
        · refine .inr ⟨hmemory, ?_, ?_⟩
          · rw [hnext]
          · rw [hnext]
            exact storesInside_append.mpr ⟨quoteStores_inside s, storesInside_nil⟩
      · rw [run, if_neg hquote]
        exact .inr ⟨fun h => hquote (h b.calls le_rfl hfirst), rfl, storesInside_nil⟩
  | integer i | address a | byte c =>
      -- Only a string needs memory of its own.
      rcases appendText_cases memory b hint with h | ⟨hmemory, hnext⟩
      · exact .inl h
      · refine .inr ⟨hmemory, ?_, ?_⟩
        · exact congrArg Prod.snd hnext
        · exact (congrArg Prod.fst hnext) ▸ storesInside_nil

theorem calls_le_after (b : Building) (turn : Turn) : b.calls ≤ (turn.after b).calls := by
  cases turn with
  | string s =>
      exact Nat.le_of_succ_le (lt_grow (Turn.string s).amount { b with calls := b.calls + 1 }).2.2
  | integer i | address a | byte c => exact (lt_grow _ b).2.2

theorem calls_le_built (b : Building) (turns : List Turn) : b.calls ≤ (built b turns).calls := by
  induction turns generalizing b with
  | nil => exact le_rfl
  | cons turn turns ih => exact (calls_le_after b turn).trans (ih (turn.after b))

theorem allocates_built_iff (b : Building) (turn : Turn) (turns : List Turn) :
    Allocates memory b (built b (turn :: turns)) ↔
      Allocates memory b (turn.after b) ∧
        Allocates memory (turn.after b) (built (turn.after b) turns) := by
  have hafter := calls_le_after b turn
  have hbuilt := calls_le_built (turn.after b) turns
  refine ⟨fun h => ⟨fun call hle hlt => ?_, fun call hle hlt => ?_⟩, fun h call hle hlt => ?_⟩
  · exact h call hle (hlt.trans_le hbuilt)
  · exact h call (hafter.trans hle) hlt
  · rcases lt_or_ge call (turn.after b).calls with hfirst | hlater
    · exact h.1 call hle hfirst
    · exact h.2 call hlater hlt

theorem overruns_cons_iff (turn : Turn) (turns : List Turn) :
    Overruns memory b (turn :: turns) ↔
      (∃ i, turn = .integer i ∧ i ≤ -1000000000 ∧ b.capacity = b.len + 11) ∨
        Allocates memory b (turn.after b) ∧ Overruns memory (turn.after b) turns := by
  constructor
  · rintro ⟨before, i, after, heq, hi, hcapacity, hmemory⟩
    cases before with
    | nil => exact .inl ⟨i, (List.cons.inj heq).1, hi, hcapacity⟩
    | cons first before =>
        obtain ⟨rfl, htail⟩ := List.cons.inj heq
        rw [allocates_built_iff] at hmemory
        exact .inr ⟨hmemory.1, before, i, after, htail, hi, hcapacity, hmemory.2⟩
  · rintro (⟨i, rfl, hi, hcapacity⟩ | ⟨hfirst, before, i, after, rfl, hi, hcapacity, hmemory⟩)
    · exact ⟨[], i, turns, rfl, hi, hcapacity, fun call hle hlt => absurd hlt (Nat.not_lt.2 hle)⟩
    · exact ⟨turn :: before, i, after, rfl, hi, hcapacity,
        (allocates_built_iff b turn before).mpr ⟨hfirst, hmemory⟩⟩

theorem runTurns_inside_iff (turns : List Turn) (b : Building)
    (hint : ∀ i, .integer i ∈ turns → -(2 ^ 31) ≤ i ∧ i < 2 ^ 31) :
    StoresInside (runTurns memory turns b).1 ↔ ¬ Overruns memory b turns := by
  induction turns generalizing b with
  | nil =>
      refine iff_of_true storesInside_nil ?_
      rintro ⟨before, i, after, heq, -⟩
      simp at heq
  | cons turn turns ih =>
      have hfirst : ∀ i, turn = .integer i → -(2 ^ 31) ≤ i ∧ i < 2 ^ 31 := fun i hi =>
        hint i (hi ▸ List.mem_cons_self)
      have hrest := ih (turn.after b) fun i hi => hint i (List.mem_cons_of_mem _ hi)
      rw [overruns_cons_iff, runTurns]
      rcases hrun : turn.run memory b with ⟨stores, next⟩
      rcases turn.run_cases memory b hfirst with ⟨hmemory, hnext, hstores⟩ | ⟨hmemory, hnext, hstores⟩
      · rw [hrun] at hnext hstores
        obtain rfl : next = some (turn.after b) := hnext
        simp only [storesInside_append, hstores, hrest, hmemory, true_and, not_or]
      · rw [hrun] at hnext hstores
        obtain rfl : next = none := hnext
        refine iff_of_true hstores ?_
        rintro (⟨i, rfl, -, hcapacity⟩ | ⟨h, -⟩)
        · -- There is room for what the number has asked for.
          refine hmemory fun call hle hlt => absurd hlt (Nat.not_lt.2 ?_)
          have hkept : (Turn.after b (.integer i)).calls = b.calls := by
            change (grow 10 b).calls = b.calls
            rw [grow, if_neg (by omega)]
          rwa [hkept]
        · exact hmemory h

end Turns

/-! ## Messages -/

theorem integer_mem_turns {i : Int} (format : List UInt8) (values : List Value)
    (h : .integer i ∈ (turns format values).1) : .integer i ∈ values := by
  fun_induction turns format values with
  | case1 | case5 | case6 | case7 => cases h
  | case2 _ format values ih | case4 _ format values ih =>
      exact List.mem_cons_of_mem _ (ih ((List.mem_cons.mp h).resolve_left (by simp)))
  | case3 i' format values ih =>
      rcases List.mem_cons.mp h with heq | h
      · injection heq with heq
        rw [heq]
        exact List.mem_cons_self
      · exact List.mem_cons_of_mem _ (ih h)
  | case8 _ _ ih | case9 _ _ _ _ _ _ _ _ _ _ ih =>
      exact ih ((List.mem_cons.mp h).resolve_left (by simp))

/-- Behind the first `ensure_buf`. -/
def started : Building := ⟨1, 0, 3072⟩

/--
A message is built inside its buffer unless a number of eleven characters comes
where the buffer ends eleven places behind the text.
-/
theorem writefStores_inside_iff (memory : Nat → Bool) (format : List UInt8) (values : List Value)
    (hint : ∀ i, .integer i ∈ values → -(2 ^ 31) ≤ i ∧ i < 2 ^ 31) :
    StoresInside (writefStores memory format values) ↔
      ¬ (memory 0 = true ∧ Overruns memory started (turns format values).1) := by
  have hbuf : ensureBuf memory 1024 ⟨0, 0, 0⟩ = if memory 0 then some started else none := rfl
  rw [writefStores, hbuf]
  by_cases hfirst : memory 0 = true
  · simp only [hfirst, if_true, true_and]
    exact runTurns_inside_iff _ started fun i hi => hint i (integer_mem_turns format values hi)
  · simp only [hfirst, Bool.false_eq_true, if_false, false_and, not_false_eq_true, iff_true]
    exact storesInside_nil

theorem writefStores_inside_iff_small :
    StoresInside (writefStores (fun _ => true) [percent, letterD] [.integer 5]) ↔
      ¬ ((fun _ => true) 0 = true ∧
        Overruns (fun _ => true) started (turns [percent, letterD] [.integer 5]).1) :=
  writefStores_inside_iff (fun _ => true) [percent, letterD] [.integer 5] fun i hi => by
    rw [List.mem_singleton, Value.integer.injEq] at hi
    omega

theorem httpQuote_replicate (n : Nat) :
    httpQuote (List.replicate n 120) = List.replicate n 120 := by
  induction n with
  | zero => rfl
  | succ n ih =>
      rw [List.replicate_succ, httpQuote, ih, if_neg (by decide), if_pos (by decide)]

/-- A string of 3061 letters and the least `int`. -/
theorem leastInt_not_inside :
    ¬ ∀ memory format values,
      (∀ i, .integer i ∈ values → -(2 ^ 31) ≤ i ∧ i < 2 ^ 31) →
        StoresInside (writefStores memory format values) := by
  intro h
  obtain ⟨name, hlength⟩ : ∃ name, (httpQuote name).length = 3061 :=
    ⟨List.replicate 3061 120, by rw [httpQuote_replicate, List.length_replicate]⟩
  have hinside := h (fun _ => true) [percent, letterS, percent, letterD]
    [.string name, .integer (-2147483648)] (by simp)
  have hrun : StoresInside (runTurns (fun _ => true)
      [.string name, .integer (-2147483648)] started).1 := hinside
  rw [runTurns_inside_iff _ _ (by simp)] at hrun
  refine hrun ⟨[.string name], -2147483648, [], rfl, by decide, ?_, fun _ _ _ => rfl⟩
  simp only [built, List.foldl_cons, List.foldl_nil, Turn.after, Turn.amount, Turn.text, grow,
    started, hlength]
  rfl

end Cs111Labs.Peer
