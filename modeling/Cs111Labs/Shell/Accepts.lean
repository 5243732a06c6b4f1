import Mathlib.Data.List.TakeWhile
import Cs111Labs.Shell.AcceptRules

/-!
# The scripts that the reader accepts

The check of the cells, like the grammar, asks for rules about three neighbours,
so both are compared symbol by symbol.
-/

namespace Cs111Labs.Shell

open Foundation Neighbour

/-! ## The check as rules about cells -/

/-- The right side of an operator or a redirection. -/
def startsOperand (after : List TokenType) : Bool :=
  (kindAt after).startsCommand ||
    (kindAt after = .halfEndCmd && (kindAt after.tail).startsCommand)

def cellPasses (before cell : TokenType) (after : List TokenType) : Bool :=
  (!cell.absorbsNewline || (before.endsCommand && startsOperand after)) &&
    (cell ≠ .semicolon || before.endsCommand) && cell ≠ .halfAnd

def cellsPass : TokenType → List TokenType → Bool
  | _, [] => true
  | before, cell :: after =>
      cellPasses before cell after && cellsPass cell after

theorem startsOperand_endCmd {after : List TokenType} (h : kindAt after = .endCmd) :
    startsOperand after = false := by
  simp [startsOperand, h, TokenType.startsCommand]

theorem checkTwosides_eq {before : List Token} (after : List Token) {atStart : Bool}
    (hsettled : kindAt (kinds before) ≠ .halfEndCmd)
    (hstart : atStart = true → (kindAt (kinds before)).endsCommand = false) :
    checkTwosides before after atStart =
      !((kindAt (kinds before)).endsCommand && startsOperand (kinds after)) := by
  simp only [checkTwosides, tokenAt_eq, kinds_tail, hsettled, decide_false,
    Bool.false_and, Bool.or_false]
  by_cases hend : kindAt (kinds after) = .endCmd
  · simp [hend, startsOperand_endCmd hend]
  · cases atStart with
    | false => simp [hend, startsOperand]
    | true => simp [hstart rfl]

theorem checkToken_isOk {before : List Token} (cell : Token) (after : List Token)
    {atStart : Bool}
    (hsettled : kindAt (kinds before) ≠ .halfEndCmd)
    (hstart : atStart = true → (kindAt (kinds before)).endsCommand = false) :
    (checkToken cell before after atStart).isOk =
      cellPasses (kindAt (kinds before)) cell.token (kinds after) := by
  have hsides := checkTwosides_eq after hsettled hstart
  cases hcell : cell.token <;>
    simp only [checkToken, hcell, checkOperator, hsides, tokenAt_eq, cellPasses] <;>
    cases (kindAt (kinds before)).endsCommand <;>
    cases startsOperand (kinds after) <;> rfl

theorem settle_token (cell : Token) :
    (settle cell).token = if cell.token = .halfEndCmd then .endCmd else cell.token := by
  unfold settle
  split <;> rfl

theorem settle_ne_halfEndCmd (cell : Token) : (settle cell).token ≠ .halfEndCmd := by
  rw [settle_token]
  split_ifs with h
  · decide
  · exact h

@[simp] theorem endsCommand_settle (cell : Token) :
    (settle cell).token.endsCommand = cell.token.endsCommand := by
  rw [settle_token]
  split_ifs with h
  · rw [h]; rfl
  · rfl

theorem cellPasses_settle (cell : Token) : 
    cellPasses (settle cell).token = cellPasses cell.token := by
  funext c after
  simp only [cellPasses, endsCommand_settle]

theorem cellsPass_settle (cell : Token) :
    cellsPass (settle cell).token = cellsPass cell.token := by
  funext after
  cases after with
  | nil => rfl
  | cons c after => simp only [cellsPass, cellPasses_settle]

/-- The newlines at the start of the array come before `command_s`. -/
theorem checkCells_isOk {skipped : Nat} {before cells : List Token}
    (hsettled : kindAt (kinds before) ≠ .halfEndCmd)
    (hstart : before.length ≤ skipped →
      (kindAt (kinds before)).endsCommand = false ∧
        before.length + (cells.takeWhile fun cell => cell.token.isNewline).length =
          skipped) :
    (checkCells skipped before cells).isOk =
      cellsPass (kindAt (kinds before)) (kinds cells) := by
  induction cells generalizing before with
  | nil => rfl
  | cons cell after ih =>
      have hcell := checkToken_isOk cell after hsettled fun h =>
        (hstart (Nat.lt_succ_iff.1 (of_decide_eq_true h))).1
      have hkinds : kindAt (kinds (settle cell :: before)) = (settle cell).token := rfl
      have hstart' : before.length + 1 ≤ skipped →
          cell.token.endsCommand = false ∧ before.length + 1 +
            (after.takeWhile fun cell => cell.token.isNewline).length = skipped := by
        intro hle
        obtain ⟨-, hlength⟩ := hstart (by omega)
        cases hline : cell.token.isNewline with
        | false => simp [hline] at hlength; omega
        | true =>
            simp only [List.takeWhile_cons, hline, if_true, List.length_cons]
              at hlength
            refine ⟨?_, by omega⟩
            cases htoken : cell.token <;> simp_all [TokenType.isNewline, TokenType.endsCommand]
      have hrest := @ih (settle cell :: before) (settle_ne_halfEndCmd cell)
        (by simpa only [hkinds, endsCommand_settle, List.length_cons] using hstart')
      rw [hkinds, cellsPass_settle] at hrest
      have hcells : kinds (cell :: after) = cell.token :: kinds after := rfl
      rw [checkCells, hcells, cellsPass, ← hcell, ← hrest]
      cases checkToken cell before after (decide (before.length < skipped + 1)) <;> rfl

@[simp] theorem kinds_cons (cell : Token) (older : List Token) :
    kinds (cell :: older) = cell.token :: kinds older := rfl

@[simp] theorem isNewline_settle (cell : Token) :
    (settle cell).token.isNewline = cell.token.isNewline := by
  rw [settle_token]
  split_ifs with h
  · rw [h]; rfl
  · rfl

/-- The cell `c` may follow the cells `a` and `b`. -/
def fits (a b c : TokenType) : Bool :=
  (!(c.absorbsNewline || c = .semicolon) || b.endsCommand) && c ≠ .halfAnd &&
    (!b.absorbsNewline || c.startsCommand || c.isNewline) &&
    (!(a.absorbsNewline && b.isNewline) || (b = .halfEndCmd && c.startsCommand))

/-- What the cells `a` and `b` ask of those after them. -/
def awaits (a b : TokenType) (after : List TokenType) : Bool :=
  (!b.absorbsNewline || startsOperand after) &&
    (!(a.absorbsNewline && b.isNewline) ||
      (b = .halfEndCmd && (kindAt after).startsCommand))

def TokenType.all : List TokenType :=
  [.null, .word, .pipeline, .and, .halfAnd, .or, .lbkt, .rbkt, .input, .output,
    .semicolon, .endCmd, .halfEndCmd]

instance : Fintype TokenType where
  elems := ⟨TokenType.all, by decide⟩
  complete t := by cases t <;> decide

theorem fits_awaits (a b c : TokenType) (after : List TokenType) :
    (fits a b c && awaits b c after) =
      (awaits a b (c :: after) && cellPasses b c after) := by
  simp only [fits, awaits, cellPasses, startsOperand, kindAt_cons, List.tail_cons]
  generalize (kindAt after = .halfEndCmd && (kindAt after.tail).startsCommand) = later
  generalize (kindAt after).startsCommand = starts, a.absorbsNewline = absorbs
  revert absorbs starts later b c
  decide

theorem fits_null : ∀ a b : TokenType, fits a b .null = awaits a b [] := by
  decide

/-- The check as a condition on three neighbours. -/
theorem windows_fits_iff (a b : TokenType) (after : List TokenType) :
    Windows (fun a b c => fits a b c = true) (a :: b :: (after ++ [.null])) ↔
      awaits a b after = true ∧ cellsPass b after = true := by
  induction after generalizing a b with
  | nil => simp [Windows, cellsPass, fits_null]
  | cons c after ih =>
      rw [List.cons_append, Windows.cons_iff, ih, cellsPass]
      simp only [← Bool.and_eq_true]
      rw [← Bool.and_assoc, fits_awaits, Bool.and_assoc]

theorem fits_settle (a b : TokenType) (cell : Token) :
    fits b (settle cell).token .null = fits b cell.token .null ∧
      fits a b (settle cell).token = fits a b cell.token := by
  rw [settle_token]
  generalize cell.token = token
  revert a b token
  decide

/-- Settling the last cell changes nothing, since the array ends after it. -/
theorem windows_settleLast (cells : List Token) :
    Windows (fun c b a => fits a b c = true)
        (.null :: (kinds (settleLast cells) ++ border)) ↔
      Windows (fun c b a => fits a b c = true) (.null :: (kinds cells ++ border)) := by
  cases cells with
  | nil => rfl
  | cons cell older =>
      simp only [settleLast, kinds_cons, List.cons_append]
      match kinds older ++ border with
      | [] => rfl
      | [b] => simp only [Windows, (fits_settle b b cell).1]
      | b :: a :: rest =>
          simp only [Windows.cons_iff, (fits_settle a b cell).1, (fits_settle a b cell).2]

theorem takeWhile_settleLast (cells : List Token) :
    ((settleLast cells).reverse.takeWhile fun cell => cell.token.isNewline).length =
      (cells.reverse.takeWhile fun cell => cell.token.isNewline).length := by
  cases cells with
  | nil => rfl
  | cons cell older =>
      simp only [settleLast, List.reverse_cons]
      rw [List.takeWhile_append, List.takeWhile_append]
      split_ifs with h
      · simp only [List.takeWhile_cons, isNewline_settle]
        split_ifs <;> simp
      · rfl

theorem checkCells_settleLast (cells : List Token) :
    (checkCells (cells.reverse.takeWhile fun cell => cell.token.isNewline).length []
        (settleLast cells).reverse).isOk = true ↔
      Windows (fun c b a => fits a b c = true) (.null :: (kinds cells ++ border)) := by
  have hpass := windows_fits_iff .null .null (kinds (settleLast cells).reverse)
  have hstart : awaits .null .null (kinds (settleLast cells).reverse) = true := rfl
  rw [hstart, eq_self, true_and] at hpass
  rw [checkCells_isOk (by decide) fun _ => ⟨rfl, by simp [takeWhile_settleLast]⟩,
    ← windows_settleLast, ← Windows.reverse_iff]
  simpa [border, kinds] using hpass.symm

/-! ## Cells and symbols -/

/-- The reader lets `z` after `x` and `y` pass. -/
def passes (x y z : Neighbour) : Bool := !sharedFault x y z && !lateFault x y z

theorem fits_left : ∀ a b c : TokenType, b.isNewline = false →
    fits a b c = fits .null b c := by
  decide

theorem fits_kindOf : ∀ x y z : Neighbour, GivesWay x y z = false →
    Merges y z = false → z ≠ some .unsupported →
    fits (kindOf x) (kindOf y) (kindOf z) = passes x y z := by
  decide

theorem merges_none : ∀ y : Neighbour, Merges y none = false := by
  decide

/-- Newlines that give way are no fault, and neither is what follows them. -/
theorem givesWay_passes : ∀ x y z : Neighbour, GivesWay x y z = true →
    passes x y z = true ∧ fits .null (kindOf x) (kindOf z) = true ∧
      passes none x y = true := by
  decide

theorem passes_left : ∀ x y z : Neighbour, isNewline y = false →
    passes x y z = passes none y z := by
  decide

theorem cellsOf_cons (z : Neighbour) (older : List Neighbour) :
    ∃ rest, cellsOf (z :: older) = kindOf z :: rest := by
  match older with
  | [] => exact ⟨_, rfl⟩
  | [y] => exact ⟨_, rfl⟩
  | y :: x :: older =>
      cases hgives : GivesWay x y z with
      | true => exact ⟨_, cellsOf_drops hgives older⟩
      | false => exact ⟨_, cellsOf_keeps hgives older⟩

theorem cellsOf_cons_cons (y x : Neighbour) (older : List Neighbour) :
    ∃ a rest, cellsOf (y :: x :: older) = kindOf y :: a :: rest ∧
      (isNewline y = true → a = kindOf x) := by
  cases hline : isNewline y with
  | true =>
      obtain ⟨rest, hrest⟩ := cellsOf_cons x older
      exact ⟨kindOf x, rest, by rw [cellsOf_newline hline, hrest], fun _ => rfl⟩
  | false =>
      match older with
      | [] => exact ⟨_, [], rfl, nofun⟩
      | w :: older =>
          cases hgives : GivesWay w x y with
          | true =>
              obtain ⟨rest, hrest⟩ := cellsOf_cons w older
              exact ⟨_, rest, by rw [cellsOf_drops hgives, hrest], nofun⟩
          | false =>
              obtain ⟨rest, hrest⟩ := cellsOf_cons x (w :: older)
              exact ⟨_, rest, by rw [cellsOf_keeps hgives, hrest], nofun⟩

/-- The reader lets the newest of some symbols pass. -/
theorem windows_cellsOf_cons {x y z : Neighbour} {older : List Neighbour}
    (hmerged : Merges y z = false) (hz : z ≠ some .unsupported)
    (holder : Windows (fun c b a => fits a b c = true) (cellsOf (x :: older)) ↔
      Windows (fun z y x => passes x y z = true) (x :: older))
    (hnewer : Windows (fun c b a => fits a b c = true) (cellsOf (y :: x :: older)) ↔
      Windows (fun z y x => passes x y z = true) (y :: x :: older)) :
    Windows (fun c b a => fits a b c = true) (cellsOf (z :: y :: x :: older)) ↔
      Windows (fun z y x => passes x y z = true) (z :: y :: x :: older) := by
  rw [Windows.cons_iff]
  cases hgives : GivesWay x y z with
  | true =>
      obtain ⟨hpasses, hfits, hpasses'⟩ := givesWay_passes x y z hgives
      obtain ⟨-, hline, -⟩ := givesWay_isNewline x y z hgives
      obtain ⟨rest, hrest⟩ := cellsOf_cons x older
      rw [cellsOf_drops hgives, hrest, Windows.cons_head_iff, ← hrest, holder,
        Windows.cons_head_iff]
      have hcells : ∀ a ∈ rest.head?, fits a (kindOf x) (kindOf z) = true :=
        fun a _ => by rw [fits_left a _ _ (by rw [kindOf_isNewline, hline]), hfits]
      have hsymbols : ∀ w ∈ older.head?, passes w x y = true :=
        fun w _ => by rw [passes_left w x y hline, hpasses']
      exact ⟨fun h => ⟨hpasses, hsymbols, h.2⟩, fun h => ⟨hcells, h.2.2⟩⟩
  | false =>
      obtain ⟨a, rest, hcells, hbelow⟩ := cellsOf_cons_cons y x older
      have hfits : fits a (kindOf y) (kindOf z) = passes x y z := by
        rw [← fits_kindOf x y z hgives hmerged hz]
        cases hline : isNewline y with
        | true => rw [hbelow hline]
        | false =>
            have hkind : (kindOf y).isNewline = false := by rw [kindOf_isNewline, hline]
            rw [fits_left a _ _ hkind, fits_left (kindOf x) _ _ hkind]
      rw [cellsOf_keeps hgives, hcells, Windows.cons_iff, ← hcells, hnewer, hfits]

theorem windows_cellsOf {x y : Neighbour} {older : List Neighbour}
    {symbols : List Symbol} (hmerged : Merged y symbols)
    (hsupported : .unsupported ∉ symbols)
    (holder : Windows (fun c b a => fits a b c = true) (cellsOf (x :: older)) ↔
      Windows (fun z y x => passes x y z = true) (x :: older))
    (hnewer : Windows (fun c b a => fits a b c = true) (cellsOf (y :: x :: older)) ↔
      Windows (fun z y x => passes x y z = true) (y :: x :: older)) :
    Windows (fun c b a => fits a b c = true)
        (cellsOf (none :: ((symbols.map some).reverse ++ y :: x :: older))) ↔
      Windows (fun z y x => passes x y z = true)
        (none :: ((symbols.map some).reverse ++ y :: x :: older)) := by
  induction symbols generalizing x y older with
  | nil => exact windows_cellsOf_cons (merges_none y) nofun holder hnewer
  | cons z symbols ih =>
      obtain ⟨hnot, hmerged⟩ := hmerged
      have hz : some z ≠ some .unsupported := fun heq =>
        hsupported (by simp [Option.some.inj heq])
      have hrest : .unsupported ∉ symbols := fun hmem => hsupported (by simp [hmem])
      have hnext := ih hmerged hrest hnewer (windows_cellsOf_cons hnot hz holder hnewer)
      simpa using hnext

/-! ## Parentheses -/

theorem settle_eq_iff (cell : Token) {token : TokenType}
    (htoken : token.isNewline = false) :
    (settle cell).token = token ↔ cell.token = token := by
  rw [settle_token]
  split_ifs with h
  · rw [h]
    constructor <;> rintro rfl <;> cases htoken
  · rfl

theorem countToken_settle {token : TokenType} (htoken : token.isNewline = false)
    (cells : List Token) :
    countToken token ((settleLast cells).reverse.map settle) =
      (kinds cells).count token := by
  have hmap : ∀ cells : List Token, 
     countToken token (cells.map settle) = (kinds cells).count token := by
    intro cells
    simp only [countToken, kinds, List.count, List.countP_map]
    congr 1
    funext cell
    simp only [Function.comp_apply, settle_eq_iff cell htoken, beq_eq_decide]
  have hlast : (kinds (settleLast cells)).count token = (kinds cells).count token := by
    cases cells with
    | nil => rfl
    | cons cell older =>
        simp [settleLast, List.count_cons, settle_eq_iff cell htoken]
  rw [hmap, ← hlast]
  simp [kinds]

theorem count_cellsOf {s : Symbol} (hs : s.isNewline = false) (hs' : s ≠ .unsupported)
    (symbols : List Neighbour) :
    (cellsOf symbols).count (kindOf (some s)) = symbols.count (some s) := by
  have hkind : ∀ z : Neighbour, kindOf z = kindOf (some s) ↔ z = some s := by
    revert s; decide
  have hline : ∀ y : Neighbour, isNewline y = true → y ≠ some s := by
    revert s; decide
  fun_induction cellsOf symbols with
  | case1 z y x older hgives ih =>
      have hy := hline y (givesWay_isNewline x y z hgives).1
      simp [List.count_cons, hkind, ih, hy]
  | case2 z y x older hgives ih => simp [List.count_cons, hkind, ih] 
  | case3 z y => simp [List.count_cons, hkind]
  | case4 z => simp [List.count_cons, hkind]
  | case5 => rfl


theorem cellsOf_none {symbols : List Neighbour} (h : symbols ≠ []) :
    cellsOf (none :: symbols) = .null :: cellsOf symbols := by
  match symbols with
  | [] => cases h rfl
  | [_] => rfl
  | y :: x :: older => exact cellsOf_keeps (by simp [GivesWay, isRedirection]) older

/-! ## Accepted scripts -/

theorem passes_unsupported : ∀ x y : Neighbour,
    passes x y (some .unsupported) = false := by
  decide

theorem countToken_cellsOf {cells : List Token} {symbols : List Symbol} (s : Symbol)
    (hs : s.isNewline = false) (hs' : s ≠ .unsupported)
    (htoken : (kindOf (some s)).isNewline = false ∧ kindOf (some s) ≠ .null)
    (hcells : kinds cells ++ border = cellsOf ((symbols.map some).reverse ++ [none, none])) :
    countToken (kindOf (some s)) ((settleLast cells).reverse.map settle) =
      symbols.count s := by
  have hcount := congrArg (List.count (kindOf (some s))) hcells
  rw [count_cellsOf hs hs', List.count_append, List.count_append] at hcount
  have hborder : border.count (kindOf (some s)) = 0 :=
    List.count_eq_zero.2 (by simpa [border] using htoken.2)
  rw [countToken_settle htoken.1]
  have hmap : (symbols.map some).count (some s) = symbols.count s :=
    List.count_map_of_injective symbols some (Option.some_injective _) s
  simpa [hborder, hmap] using hcount

theorem makeCommandStream_of_read {bytes : List UInt8} {s : Reader}
    (h : readBytes bytes {} = .ok s) :
    (makeCommandStream bytes).isOk = true ↔
      (checkCells (s.cells.reverse.takeWhile fun cell => cell.token.isNewline).length []
          (settleLast s.cells).reverse).isOk = true ∧
        countToken .lbkt ((settleLast s.cells).reverse.map settle) =
          countToken .rbkt ((settleLast s.cells).reverse.map settle) := by
  simp only [makeCommandStream, h, bind, Except.bind]
  cases hcheck : checkCells (s.cells.reverse.takeWhile fun cell =>
      cell.token.isNewline).length [] (settleLast s.cells).reverse with
  | error text => simp [Except.isOk, Except.toBool]
  | ok checked =>
      have hchecked := checkCells_eq_ok hcheck
      rw [List.reverse_nil, List.nil_append] at hchecked
      rw [← hchecked]
      dsimp only
      split_ifs with hmore hless
      · simp [Except.isOk, Except.toBool]; omega
      · simp [Except.isOk, Except.toBool]; omega
      · simp [Except.isOk, Except.toBool]; omega

theorem makeCommandStream_isOk (bytes : List UInt8) :
    (makeCommandStream bytes).isOk = true ↔
      Windows (fun x y z => passes x y z = true) (bordered (symbols (untilEnd bytes))) ∧
        (symbols (untilEnd bytes)).count .lparen =
          (symbols (untilEnd bytes)).count .rparen := by
  have hread := readBytes_cells bytes
  generalize hS : symbols (untilEnd bytes) = S at hread ⊢
  have hmerged : Merged none S := hS ▸ merged_symbolsOf _
  by_cases hsupported : .unsupported ∈ S
  · rw [if_pos hsupported] at hread
    have hfails : ¬ Windows (fun x y z => passes x y z = true) (bordered S) := by
      intro hwindows
      obtain ⟨x, y, hpasses⟩ := hwindows.exists_of_mem
        (List.mem_append_left [none] (List.mem_map_of_mem hsupported))
      simp [passes_unsupported] at hpasses
    cases hbytes : readBytes bytes {} with
    | error text =>
        simp [makeCommandStream, hbytes, bind, Except.bind, Except.isOk, Except.toBool,
          hfails]
    | ok s => rw [hbytes] at hread; cases hread
  · rw [if_neg hsupported] at hread
    cases hbytes : readBytes bytes {} with
    | error text => rw [hbytes] at hread; cases hread
    | ok s =>
        rw [hbytes] at hread
        have hcells : kinds s.cells ++ border =
            cellsOf ((S.map some).reverse ++ [none, none]) := Option.some.inj hread
        have hcheck := checkCells_settleLast s.cells
        have hwindows : (bordered S).reverse =
            none :: ((S.map some).reverse ++ [none, none]) := by simp [bordered]
        rw [hcells, ← cellsOf_none (by simp),
          windows_cellsOf hmerged hsupported Iff.rfl Iff.rfl, ← hwindows,
          Windows.reverse_iff] at hcheck
        have hlbkt : countToken .lbkt _ = S.count .lparen :=
          countToken_cellsOf .lparen rfl nofun ⟨rfl, nofun⟩ hcells
        have hrbkt : countToken .rbkt _ = S.count .rparen :=
          countToken_cellsOf .rparen rfl nofun ⟨rfl, nofun⟩ hcells
        rw [makeCommandStream_of_read hbytes, hcheck, hlbkt, hrbkt]

/-! ## The reader and the grammar -/

/-- The script has a fault that the reader and the subset both reject. -/
def HasSharedFault (symbols : List Symbol) : Prop :=
  ¬ Windows (fun x y z => sharedFault x y z = false) (bordered symbols) ∨
    symbols.count .lparen ≠ symbols.count .rparen

/-- An operator, two newlines or more and a parenthesis. -/
def HasLateParen (symbols : List Symbol) : Prop :=
  ¬ Windows (fun x y z => lateFault x y z = false) (bordered symbols)

/-- The script has a fault that the reader does not look for. -/
def HasMissedFault (script : List UInt8) : Prop :=
  hasGluedComment false false script = true ∨
    HasSpacedOperator (lexemes false false script) ∨
    ¬ Windows (fun x y z => missedFault x y z = false) (bordered (symbols script)) ∨
    ClosesEarly (symbols script)

theorem rejects_iff (bytes : List UInt8) :
    (∃ message, makeCommandStream bytes = .error message) ↔
      HasSharedFault (symbols (untilEnd bytes)) ∨ HasLateParen (symbols (untilEnd bytes)) := by
  have hok := makeCommandStream_isOk bytes
  have herror : (∃ message, makeCommandStream bytes = .error message) ↔
      ¬ (makeCommandStream bytes).isOk = true := by
    cases makeCommandStream bytes <;> simp [Except.isOk, Except.toBool]
  simp only [passes, Bool.and_eq_true, Bool.not_eq_true', Windows.and_iff] at hok
  rw [herror, hok, HasSharedFault, HasLateParen]
  tauto

theorem not_inSubset_iff (script : List UInt8) :
    ¬ InSubset script ↔ HasSharedFault (symbols script) ∨ HasMissedFault script := by
  have hderives := derives_complete_iff_rules
    (merged_symbolsOf (lexemes false false script))
  simp only [goodNext, Bool.and_eq_true, Bool.not_eq_true', Windows.and_iff] at hderives
  rw [InSubset, symbols, hderives, HasSharedFault, HasMissedFault, symbols,
    ← Bool.not_eq_true]
  tauto

/-- The reader reports a syntax error just for the scripts outside the subset. -/
def ReadsSubset (bytes : List UInt8) : Prop :=
  (∃ message, makeCommandStream bytes = .error message) ↔ ¬ InSubset bytes

/-- Where the reader and the subset agree; the bytes from 255 on are not read. -/
def Agrees (script : List UInt8) : Prop :=
  (255 ∉ script →
    HasSharedFault (symbols script) ∨
      (HasLateParen (symbols script) ↔ HasMissedFault script)) ∧
  (255 ∈ script →
    (HasSharedFault (symbols (untilEnd script)) ∨
        HasLateParen (symbols (untilEnd script)) ↔
      HasSharedFault (symbols script) ∨ HasMissedFault script))

theorem untilEnd_eq_self {script : List UInt8} (h : 255 ∉ script) :
    untilEnd script = script := by
  rw [untilEnd, List.takeWhile_eq_self_iff]
  intro byte hbyte
  have hne : byte ≠ 255 := by
    rintro rfl
    exact h hbyte
  exact decide_eq_true hne

theorem readsSubset_iff (bytes : List UInt8) : ReadsSubset bytes ↔ Agrees bytes := by
  rw [ReadsSubset, rejects_iff, not_inSubset_iff, Agrees]
  by_cases hend : 255 ∈ bytes
  · simp only [hend, not_true, false_imp_iff, true_and, true_imp_iff]
  · simp only [hend, not_false_eq_true, true_imp_iff, false_imp_iff, and_true,
      untilEnd_eq_self hend]
    by_cases hshared : HasSharedFault (symbols bytes)
    · simp only [hshared, true_or]
    · simp only [hshared, false_or]

/-- `a > b c` is read without an error. -/
theorem wordAfterRedirection_not_readsSubset :
    ¬ ReadsSubset [97, 32, 62, 32, 98, 32, 99, 10] := by
  intro hreads
  have hmissed : HasMissedFault [97, 32, 62, 32, 98, 32, 99, 10] :=
    .inr (.inr (.inl (by decide)))
  obtain ⟨message, herror⟩ := hreads.2 ((not_inSubset_iff _).2 (.inr hmissed))
  cases herror

end Cs111Labs.Shell
