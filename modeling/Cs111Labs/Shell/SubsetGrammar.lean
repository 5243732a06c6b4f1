import Cs111Labs.Shell.SubsetRules

/-!
# The scanner decides the grammar

Every phrase takes the scanner from a state where a command may begin to one
where it may end.  Conversely an accepted rest of a script completes whatever
phrase its state stands for.
-/

namespace Cs111Labs.Shell

variable {q q' : ScanState} {depth : Nat} {rest space : List Symbol}

/-! ## Phrases are accepted -/

def scan : ScanState → Nat → List Symbol → Option (ScanState × Nat)
  | q, depth, [] => some (q, depth)
  | q, depth, z :: rest =>
      match q.next z, depthAfter depth z with
      | some q', some depth' => scan q' depth' rest
      | _, _ => none

theorem scan_append (first : List Symbol) {depth' : Nat}
    (h : scan q depth first = some (q', depth')) (rest : List Symbol) :
    scan q depth (first ++ rest) = scan q' depth' rest := by
  induction first generalizing q depth with
  | nil =>
      obtain ⟨rfl, rfl⟩ : q = q' ∧ depth = depth' := by simpa [scan] using h
      rfl
  | cons z first ih =>
      simp only [scan, List.cons_append] at h ⊢
      split at h
      · exact ih h
      · cases h

theorem accepts_eq_scan (q : ScanState) (depth : Nat) (rest : List Symbol) :
    accepts q depth rest =
      (scan q depth rest).any fun p => p.2 = 0 && p.1.final := by
  induction rest generalizing q depth with
  | nil => rfl
  | cons z rest ih =>
      cases hnext : q.next z <;> cases hdepth : depthAfter depth z <;>
        simp [accepts, scan, hnext, hdepth, ih]

namespace ScanState

/-- A command may begin. -/
def begins (q : ScanState) : Bool :=
  q = start || q = opened || q = afterOperator || q = between

/-- A command may end. -/
def ends (q : ScanState) : Bool :=
  q = words || q = closed || q = afterLess || q = afterGreater

end ScanState

/-- The states in which a phrase may begin. -/
def Phrase.begins (phrase : Phrase) (q : ScanState) : Bool :=
  q.begins || (phrase = .simple && q = .words)

/-- The states in which a phrase may end. -/
def Phrase.ends : Phrase → ScanState → Bool
  | .simple, q => q = .words
  | .subshell, q => q = .closed
  | .command, q | .pipeline, q | .andOr, q => q.ends
  | .list, q | .complete, q => q.final

theorem scan_newlines (hspace : Newlines space) (hq : q.begins = true) :
    scan q depth space = some (q, depth) := by
  rcases hspace with rfl | rfl | rfl <;>
    cases q <;> first | rfl | cases hq

theorem scan_redirection (depth : Nat) {redirection : List Symbol}
    (hredirection : Redirection redirection)
    (hq : q = .words ∨ q = .closed) :
    ∃ q', scan q depth redirection = some (q', depth) ∧ q'.ends = true := by
  rcases hredirection with rfl | rfl | rfl | rfl <;> rcases hq with rfl | rfl <;>
    exact ⟨_, rfl, rfl⟩

theorem scan_separator {separator : List Symbol} (hseparator : Separator separator)
    (hq : q.ends = true) :
    scan q depth separator = some (.between, depth) := by
  have hnext : ∀ z, z = Symbol.semicolon ∨ z = .newline ∨ z = .newlines →
      scan q depth [z] = some (.between, depth) := by
    rintro z (rfl | rfl | rfl) <;> cases q <;> first | rfl | cases hq
  rcases hseparator with ⟨space, rfl, hspace⟩ | rfl | rfl
  · rw [← List.singleton_append, scan_append [.semicolon] (hnext _ (by simp))]
    exact scan_newlines hspace rfl
  · exact hnext _ (by simp)
  · exact hnext _ (by simp)

theorem ScanState.final_of_ends (h : q.ends = true) : q.final = true := by
  cases q <;> simp_all [ScanState.ends, ScanState.final]

theorem scan_operator {operator : Symbol}
    (hoperator : operator = .pipe ∨ operator = .andIf ∨ operator = .orIf)
    (hq : q.ends = true) (hspace : Newlines space) :
    scan q depth (operator :: space) = some (.afterOperator, depth) := by
  have hnext : scan q depth [operator] = some (.afterOperator, depth) := by
    rcases hoperator with rfl | rfl | rfl <;> cases q <;> first | rfl | cases hq
  rw [← List.singleton_append, scan_append [operator] hnext]
  exact scan_newlines hspace rfl

theorem Phrase.begins_of (hq : q.begins = true) (phrase : Phrase) :
    phrase.begins q = true := by
  simp [Phrase.begins, hq]

theorem Phrase.begins_of_phrase {phrase : Phrase} (hq : phrase.begins q = true)
    (hphrase : phrase ≠ .simple) : q.begins = true := by
  simpa [Phrase.begins, hphrase] using hq

theorem scan_word (hq : Phrase.simple.begins q = true) :
    scan q depth [.word] = some (.words, depth) := by
  cases q <;> first | rfl | cases hq

theorem scan_lparen (depth : Nat) (hq : q.begins = true) :
    scan q depth [.lparen] = some (.opened, depth + 1) := by
  cases q <;> first | rfl | cases hq

theorem scan_rparen (depth : Nat) (hq : Phrase.complete.ends q = true) :
    scan q (depth + 1) [.rparen] = some (.closed, depth) := by
  cases q <;> first | rfl | cases hq

theorem scan_of_derives {phrase : Phrase} {symbols : List Symbol}
    (h : Derives phrase symbols) (q : ScanState) (depth : Nat)
    (hq : phrase.begins q = true) :
    ∃ q', scan q depth symbols = some (q', depth) ∧ phrase.ends q' = true := by
  induction h generalizing q depth with
  | word =>
      exact ⟨.words, scan_word hq, rfl⟩
  | @words rest _ ih =>
      obtain ⟨q', hscan, hends⟩ := ih .words depth rfl
      refine ⟨q', ?_, hends⟩
      rw [← List.singleton_append, scan_append [.word] (scan_word hq), hscan]
  | @subshell body _ ih =>
      obtain ⟨q', hscan, hends⟩ := ih .opened (depth + 1) rfl
      refine ⟨.closed, ?_, rfl⟩
      have hopen := scan_lparen depth (Phrase.begins_of_phrase hq nofun)
      have hclose := scan_rparen depth hends
      rw [← List.singleton_append, List.append_assoc, scan_append [.lparen] hopen,
        scan_append body hscan, hclose]
  | @simpleCommand head redirection _ hredirection ih =>
      have hbegins := Phrase.begins_of_phrase hq nofun
      obtain ⟨q', hscan, hends⟩ := ih q depth (Phrase.begins_of hbegins _)
      obtain ⟨q'', hscan', hends'⟩ := scan_redirection depth hredirection
        (.inl (of_decide_eq_true hends))
      exact ⟨q'', by rw [scan_append head hscan, hscan'], hends'⟩
  | @subshellCommand head redirection _ hredirection ih =>
      have hbegins := Phrase.begins_of_phrase hq nofun
      obtain ⟨q', hscan, hends⟩ := ih q depth (Phrase.begins_of hbegins _)
      obtain ⟨q'', hscan', hends'⟩ := scan_redirection depth hredirection
        (.inr (of_decide_eq_true hends))
      exact ⟨q'', by rw [scan_append head hscan, hscan'], hends'⟩
  | pipelineOne _ ih =>
      exact ih q depth (Phrase.begins_of (Phrase.begins_of_phrase hq nofun) _)
  | @pipelineMore first space rest _ hspace _ ihFirst ihRest =>
      have hbegins := Phrase.begins_of_phrase hq nofun
      obtain ⟨q', hscan, hends⟩ := ihFirst q depth (Phrase.begins_of hbegins _)
      obtain ⟨q'', hscan', hends'⟩ := ihRest .afterOperator depth rfl
      refine ⟨q'', ?_, hends'⟩
      rw [List.append_assoc, scan_append first hscan,
        scan_append (.pipe :: space) (scan_operator (.inl rfl) hends hspace), hscan']
  | andOrOne _ ih =>
      exact ih q depth (Phrase.begins_of (Phrase.begins_of_phrase hq nofun) _)
  | @andOrMore first space rest operator _ hoperator hspace _ ihFirst ihRest =>
      have hbegins := Phrase.begins_of_phrase hq nofun
      obtain ⟨q', hscan, hends⟩ := ihFirst q depth (Phrase.begins_of hbegins _)
      obtain ⟨q'', hscan', hends'⟩ := ihRest .afterOperator depth rfl
      refine ⟨q'', ?_, hends'⟩
      rw [List.append_assoc, scan_append first hscan, scan_append (operator :: space)
        (scan_operator (.inr hoperator) hends hspace), hscan']
  | @listOne first ending _ hending ih =>
      have hbegins := Phrase.begins_of_phrase hq nofun
      obtain ⟨q', hscan, hends⟩ := ih q depth (Phrase.begins_of hbegins _)
      rw [scan_append first hscan]
      rcases hending with (rfl | rfl | rfl) | hseparator
      · exact ⟨q', rfl, ScanState.final_of_ends hends⟩
      · exact ⟨.between, scan_separator (.inr (.inl rfl)) hends, rfl⟩
      · exact ⟨.between, scan_separator (.inr (.inr rfl)) hends, rfl⟩
      · exact ⟨.between, scan_separator hseparator hends, rfl⟩
  | @listMore first separator rest _ hseparator _ ihFirst ihRest =>
      have hbegins := Phrase.begins_of_phrase hq nofun
      obtain ⟨q', hscan, hends⟩ := ihFirst q depth (Phrase.begins_of hbegins _)
      obtain ⟨q'', hscan', hends'⟩ := ihRest .between depth rfl
      refine ⟨q'', ?_, hends'⟩
      rw [List.append_assoc, scan_append first hscan,
        scan_append separator (scan_separator hseparator hends), hscan']
  | @complete space rest hspace _ ih =>
      have hbegins := Phrase.begins_of_phrase hq nofun
      obtain ⟨q', hscan, hends⟩ := ih q depth (Phrase.begins_of hbegins _)
      exact ⟨q', by rw [scan_append space (scan_newlines hspace hbegins), hscan],
        hends⟩

/-! ## What is accepted is a phrase -/

variable {head redirection : List Symbol} {command : List Symbol}

/-- The inner part of an open parenthesis ends at the `)` that closes it. -/
theorem accepts_split (inner depth : Nat)
    (h : accepts q (inner + depth + 1) rest = true) :
    ∃ body after, rest = body ++ .rparen :: after ∧ accepts q inner body = true ∧
      accepts .closed depth after = true := by
  induction rest generalizing q inner with
  | nil => simp [accepts] at h
  | cons z rest ih =>
      simp only [accepts] at h
      cases hnext : q.next z with
      | none => simp [hnext] at h
      | some q' =>
          cases z with
          | lparen =>
              simp only [hnext, depthAfter] at h
              rw [show inner + depth + 1 + 1 = (inner + 1) + depth + 1 by omega] at h
              obtain ⟨body, after, rfl, hbody, hafter⟩ := ih (inner + 1) h
              exact ⟨.lparen :: body, after, rfl,
                by simpa [accepts, hnext, depthAfter] using hbody, hafter⟩
          | rparen =>
              have hfinal : q.final = true ∧ q' = .closed := by
                cases q <;> first
                  | exact ⟨rfl, (Option.some.inj hnext).symm⟩
                  | cases hnext
              cases inner with
              | zero =>
                  refine ⟨[], rest, rfl, by simpa [accepts] using hfinal.1, ?_⟩
                  simpa [hnext, depthAfter, hfinal.2] using h
              | succ inner =>
                  have hrest : accepts q' (inner + depth + 1) rest = true := by
                    rw [show inner + 1 + depth + 1 = (inner + depth + 1) + 1 by
                      omega] at h
                    simpa [hnext, depthAfter] using h
                  obtain ⟨body, after, rfl, hbody, hafter⟩ := ih inner hrest
                  exact ⟨.rparen :: body, after, rfl,
                    by simpa [accepts, hnext, depthAfter] using hbody, hafter⟩
          | word | semicolon | pipe | ampersand | andIf | orIf | less | greater
            | newline | newlines | unsupported =>
              simp only [hnext, depthAfter] at h
              obtain ⟨body, after, rfl, hbody, hafter⟩ := ih inner h
              exact ⟨_ :: body, after, rfl,
                by simpa [accepts, hnext, depthAfter] using hbody, hafter⟩

theorem andOr_operator {operator : Symbol} (hcommand : Derives .command command)
    (hoperator : operator = .pipe ∨ operator = .andIf ∨ operator = .orIf)
    (hspace : Newlines space) (hrest : Derives .andOr rest) :
    Derives .andOr (command ++ operator :: space ++ rest) := by
  rcases hoperator with rfl | hoperator
  · cases hrest with
    | andOrOne hpipeline =>
        exact .andOrOne (.pipelineMore hcommand hspace hpipeline)
    | andOrMore hpipeline hor hnewlines hmore =>
        have hlonger := Derives.pipelineMore hcommand hspace hpipeline
        simpa using Derives.andOrMore hlonger hor hnewlines hmore
  · exact .andOrMore (.pipelineOne hcommand) hoperator hspace hrest

theorem list_operator {operator : Symbol} (hcommand : Derives .command command)
    (hoperator : operator = .pipe ∨ operator = .andIf ∨ operator = .orIf)
    (hspace : Newlines space) (hrest : Derives .list rest) :
    Derives .list (command ++ operator :: space ++ rest) := by
  cases hrest with
  | listOne hfirst hending =>
      simpa using Derives.listOne
        (andOr_operator hcommand hoperator hspace hfirst) hending
  | listMore hfirst hseparator hmore =>
      simpa using Derives.listMore
        (andOr_operator hcommand hoperator hspace hfirst) hseparator hmore

theorem andOr_command (hcommand : Derives .command command) :
    Derives .andOr command :=
  .andOrOne (.pipelineOne hcommand)

/-- A list after white space, which is empty after a newline. -/
def Continues (y : Neighbour) (rest : List Symbol) : Prop :=
  ∃ space list, rest = space ++ list ∧ Newlines space ∧
    (y.isNewline = true → space = []) ∧ Derives .list list

/-- What an accepted rest of a script completes. -/
def Completes (y : Neighbour) : ScanState → List Symbol → Prop
  | .start, rest | .opened, rest | .afterOperator, rest => Continues y rest
  | .between, rest =>
      (Newlines rest ∧ (y.isNewline = true → rest = [])) ∨ Continues y rest
  | .words, rest => ∀ head, Derives .simple head → Derives .list (head ++ rest)
  | .closed, rest => ∀ head, Derives .subshell head → Derives .list (head ++ rest)
  | .less, rest => ∀ head, Derives .simple head ∨ Derives .subshell head →
      Derives .list (head ++ .less :: rest)
  | .afterLess, rest => ∀ head, Derives .simple head ∨ Derives .subshell head →
      Derives .list (head ++ .less :: .word :: rest)
  | .greater, rest => ∀ head redirection,
      Derives .simple head ∨ Derives .subshell head →
      redirection = [] ∨ redirection = [.less, .word] →
      Derives .list (head ++ redirection ++ .greater :: rest)
  | .afterGreater, rest => ∀ head redirection,
      Derives .simple head ∨ Derives .subshell head →
      redirection = [] ∨ redirection = [.less, .word] →
      Derives .list (head ++ redirection ++ .greater :: .word :: rest)

theorem command_of_head (h : Derives .simple head ∨ Derives .subshell head)
    (hredirection : Redirection redirection) :
    Derives .command (head ++ redirection) :=
  h.elim (fun h => .simpleCommand h hredirection)
    fun h => .subshellCommand h hredirection

/-- After a command there is its end or another command. -/
theorem list_of_command {z : Symbol} (hcommand : Derives .command command)
    (hnext : ScanState.nextAfterCommand z = some q) (hz : z ≠ .rparen)
    (hrest : Completes (some z) q rest) :
    Derives .list (command ++ z :: rest) := by
  cases z with
  | pipe | andIf | orIf =>
      obtain rfl : ScanState.afterOperator = q := Option.some.inj hnext
      obtain ⟨space, list, rfl, hspace, -, hlist⟩ := hrest
      simpa using list_operator hcommand (by simp) hspace hlist
  | semicolon =>
      obtain rfl : ScanState.between = q := Option.some.inj hnext
      rcases hrest with ⟨hspace, -⟩ | ⟨space, list, rfl, hspace, -, hlist⟩
      · exact .listOne (andOr_command hcommand) (.inr (.inl ⟨rest, rfl, hspace⟩))
      · simpa using Derives.listMore (andOr_command hcommand)
          (.inl ⟨space, rfl, hspace⟩) hlist
  | newline | newlines =>
      obtain rfl : ScanState.between = q := Option.some.inj hnext
      rcases hrest with ⟨-, hempty⟩ | ⟨space, list, rfl, -, hempty, hlist⟩
      · obtain rfl := hempty rfl
        exact .listOne (andOr_command hcommand) (.inr (.inr (by simp)))
      · obtain rfl := hempty rfl
        simpa using Derives.listMore (andOr_command hcommand)
          (show Separator [_] from .inr (by simp)) hlist
  | rparen => exact absurd rfl hz
  | word | ampersand | lparen | less | greater | unsupported => cases hnext

theorem Merged.append {first : List Symbol} {y : Neighbour}
    (h : Merged y (first ++ rest)) : Merged y first := by
  induction first generalizing y with
  | nil => trivial
  | cons z first ih => exact ⟨h.1, ih h.2⟩

theorem Merged.after {first : List Symbol} {z : Symbol} {y : Neighbour}
    (h : Merged y (first ++ z :: rest)) : Merged (some z) rest := by
  induction first generalizing y with
  | nil => exact h.2
  | cons _ first ih => exact ih h.2

theorem simple_concat (h : Derives .simple head) :
    Derives .simple (head ++ [.word]) := by
  induction head with
  | nil => cases h
  | cons z head ih =>
      cases h with
      | word => exact .words .word
      | words hrest => exact .words (ih hrest)

theorem accepts_cons {z : Symbol} (h : accepts q depth (z :: rest) = true) :
    ∃ q' depth', q.next z = some q' ∧ depthAfter depth z = some depth' ∧
      accepts q' depth' rest = true := by
  simp only [accepts] at h
  split at h
  · rename_i q' depth' hnext hdepth
    exact ⟨q', depth', hnext, hdepth, h⟩
  · cases h

theorem continues_of_list (y : Neighbour) (h : Derives .list rest) :
    Continues y rest :=
  ⟨[], rest, rfl, .inl rfl, fun _ => rfl, h⟩

theorem not_isNewline_of_merges {y : Neighbour} {z : Symbol}
    (hz : z = .newline ∨ z = .newlines) (hnot : Merges y (some z) = false) :
    y.isNewline ≠ true := by
  have hnewline : Neighbour.isNewline (some z) = true := by
    rcases hz with rfl | rfl <;> rfl
  intro hy
  simp [Merges, hy, hnewline] at hnot

theorem continues_of_newline {y : Neighbour} {z : Symbol}
    (hz : z = .newline ∨ z = .newlines) (hnot : Merges y (some z) = false)
    (h : Continues (some z) rest) : Continues y (z :: rest) := by
  obtain ⟨space, list, rfl, -, hempty, hlist⟩ := h
  have hnewline : Neighbour.isNewline (some z) = true := by
    rcases hz with rfl | rfl <;> rfl
  obtain rfl := hempty hnewline
  refine ⟨[z], list, rfl, ?_, ?_, hlist⟩
  · rcases hz with rfl | rfl <;> simp [Newlines]
  · exact fun hy => absurd hy (not_isNewline_of_merges hz hnot)

theorem completes_of_ends {command : List Symbol} {z : Symbol}
    (hcommand : Derives .command command)
    (hnext : ScanState.nextAfterCommand z = some q')
    (hdepth : ∃ depth', depthAfter 0 z = some depth')
    (hrest : Completes (some z) q' rest) :
    Derives .list (command ++ z :: rest) := by
  refine list_of_command hcommand hnext ?_ hrest
  rintro rfl
  simp [depthAfter] at hdepth

theorem depthAfter_zero {z : Symbol} (hz : z ≠ .lparen) {depth' : Nat}
    (h : depthAfter 0 z = some depth') : depth' = 0 := by
  cases z <;> simp_all [depthAfter]

theorem ScanState.next_of_begins (hq : q.begins = true) :
    q.next .word = some .words ∧ q.next .lparen = some .opened := by
  cases q <;> first | exact ⟨rfl, rfl⟩ | cases hq

theorem completes_of_accepts (y : Neighbour) (q : ScanState)
    (rest : List Symbol) (h : accepts q 0 rest = true) (hmerged : Merged y rest) :
    Completes y q rest := by
  induction hlength : rest.length using Nat.strong_induction_on
    generalizing y q rest with
  | _ length ih =>
  cases rest with
  | nil =>
      have hfinal : q.final = true := by simpa [accepts] using h
      have hlist : ∀ {head redirection}, Derives .simple head ∨ Derives .subshell head →
          Redirection redirection → Derives .list (head ++ redirection ++ []) :=
        fun hhead hredirection => .listOne
          (andOr_command (command_of_head hhead hredirection)) (.inl (.inl rfl))
      cases q with
      | start | opened | afterOperator | less | greater =>
          simp [ScanState.final] at hfinal
      | between => exact .inl ⟨.inl rfl, fun _ => rfl⟩
      | words =>
          intro head hhead
          simpa using hlist (.inl hhead) (.inl rfl)
      | closed =>
          intro head hhead
          simpa using hlist (.inr hhead) (.inl rfl)
      | afterLess =>
          intro head hhead
          simpa using hlist hhead (.inr (.inl rfl))
      | afterGreater =>
          rintro head redirection hhead (rfl | rfl)
          · simpa using hlist hhead (.inr (.inr (.inl rfl)))
          · simpa using hlist hhead (.inr (.inr (.inr rfl)))
  | cons z rest =>
      obtain ⟨hnot, hmergedRest⟩ := hmerged
      obtain ⟨q', depth', hnext, hdepth, hrest⟩ := accepts_cons h
      have hshort : rest.length < length := by
        rw [← hlength]
        exact Nat.lt_succ_self _
      have hsame : ∀ q', q.next z = some q' → z ≠ .lparen →
          Completes (some z) q' rest := by
        intro q'' hq hne
        obtain rfl : q' = q'' := Option.some.inj (hnext.symm.trans hq)
        have hzero : depth' = 0 := depthAfter_zero hne hdepth
        exact ih rest.length hshort _ _ rest (hzero ▸ hrest) hmergedRest rfl
      have hends : ∀ {command q'}, Derives .command command →
          q.next z = some q' → ScanState.nextAfterCommand z = some q' →
          z ≠ .lparen → Derives .list (command ++ z :: rest) :=
        fun hcommand hq hafter hne => completes_of_ends hcommand hafter
          ⟨depth', hdepth⟩ (hsame _ hq hne)
      -- A command begins the same way in all four states.
      have hbegins : q.begins = true → z = .word ∨ z = .lparen →
          Continues y (z :: rest) := by
        rintro hq (rfl | rfl)
        · have hwords := hsame .words (ScanState.next_of_begins hq).1 (by simp)
          exact continues_of_list y (hwords [.word] .word)
        · obtain rfl : .opened = q' :=
            Option.some.inj ((ScanState.next_of_begins hq).2.symm.trans hnext)
          obtain rfl : 0 + 1 = depth' := Option.some.inj hdepth
          obtain ⟨body, after, rfl, hbody, hafter⟩ := accepts_split 0 0 hrest
          have hbodyShort : body.length < length := by
            simp at hshort
            omega
          have hafterShort : after.length < length := by
            simp at hshort
            omega
          obtain ⟨space, list, rfl, hspace, -, hlist⟩ :=
            ih body.length hbodyShort _ .opened body hbody hmergedRest.append rfl
          have hclosed := ih after.length hafterShort _ .closed after hafter
            hmergedRest.after rfl
          have hsubshell : Derives .subshell
              (.lparen :: (space ++ list) ++ [.rparen]) :=
            .subshell (.complete hspace hlist)
          exact continues_of_list y (by simpa using hclosed _ hsubshell)
      cases q with
      | start | opened | afterOperator =>
          cases z with
          | word | lparen => exact hbegins rfl (by simp)
          | newline | newlines =>
              exact continues_of_newline (by simp) hnot (hsame _ rfl (by simp))
          | semicolon | pipe | ampersand | andIf | orIf | rparen | less | greater
            | unsupported => cases hnext
      | between =>
          cases z with
          | word | lparen => exact .inr (hbegins rfl (by simp))
          | newline | newlines =>
              rcases hsame .between rfl (by simp) with ⟨-, hempty⟩ | hcontinues
              · obtain rfl := hempty rfl
                exact .inl ⟨by simp [Newlines], fun hy =>
                  absurd hy (not_isNewline_of_merges (by simp) hnot)⟩
              · exact .inr (continues_of_newline (by simp) hnot hcontinues)
          | rparen => simp [depthAfter] at hdepth
          | semicolon | pipe | ampersand | andIf | orIf | less | greater
            | unsupported => cases hnext
      | words =>
          intro head hhead
          cases z with
          | word =>
              have hlist := hsame .words rfl (by simp) _ (simple_concat hhead)
              simpa using hlist
          | less => exact hsame .less rfl (by simp) head (.inl hhead)
          | greater =>
              simpa using hsame .greater rfl (by simp) head [] (.inl hhead) (.inl rfl)
          | lparen | ampersand | unsupported => cases hnext
          | semicolon | pipe | andIf | orIf | rparen | newline | newlines =>
              simpa using hends (command_of_head (.inl hhead) (.inl rfl)) rfl rfl
                (by simp)
      | closed =>
          intro head hhead
          cases z with
          | less => exact hsame .less rfl (by simp) head (.inr hhead)
          | greater =>
              simpa using hsame .greater rfl (by simp) head [] (.inr hhead) (.inl rfl)
          | word | lparen | ampersand | unsupported => cases hnext
          | semicolon | pipe | andIf | orIf | rparen | newline | newlines =>
              simpa using hends (command_of_head (.inr hhead) (.inl rfl)) rfl rfl
                (by simp)
      | less =>
          intro head hhead
          cases z with
          | word => exact hsame .afterLess rfl (by simp) head hhead
          | semicolon | pipe | ampersand | andIf | orIf | lparen | rparen | less
            | greater | newline | newlines | unsupported => cases hnext
      | afterLess =>
          intro head hhead
          cases z with
          | greater =>
              simpa using hsame .greater rfl (by simp) head _ hhead (.inr rfl)
          | word | lparen | less | ampersand | unsupported => cases hnext
          | semicolon | pipe | andIf | orIf | rparen | newline | newlines =>
              simpa using hends (command_of_head hhead (.inr (.inl rfl))) rfl rfl
                (by simp)
      | greater =>
          intro head redirection hhead hredirection
          cases z with
          | word => exact hsame .afterGreater rfl (by simp) head _ hhead hredirection
          | semicolon | pipe | ampersand | andIf | orIf | lparen | rparen | less
            | greater | newline | newlines | unsupported => cases hnext
      | afterGreater =>
          intro head redirection hhead hredirection
          have hlonger : Redirection (redirection ++ [.greater, .word]) := by
            rcases hredirection with rfl | rfl <;> simp [Redirection]
          cases z with
          | word | lparen | less | greater | ampersand | unsupported => cases hnext
          | semicolon | pipe | andIf | orIf | rparen | newline | newlines =>
              simpa using hends (command_of_head hhead hlonger) rfl rfl (by simp)

theorem derives_complete_iff {symbols : List Symbol}
    (hmerged : Merged none symbols) :
    Derives .complete symbols ↔ accepts .start 0 symbols = true := by
  constructor
  · intro h
    obtain ⟨q, hscan, hends⟩ := scan_of_derives h .start 0 rfl
    have hfinal : q.final = true := hends
    simp [accepts_eq_scan, hscan, hfinal]
  · intro h
    obtain ⟨space, list, rfl, hspace, -, hlist⟩ :=
      completes_of_accepts none .start symbols h hmerged
    exact .complete hspace hlist

/-- A symbol is put in front that does not merge with the next one, or it takes the place of
one that merges with at least as many. -/
theorem pushLexeme_cases (lexeme : Lexeme) (symbols : List Symbol) :
    pushLexeme lexeme symbols = symbols ∨
      (∃ x, pushLexeme lexeme symbols = x :: symbols ∧
        ∀ z ∈ symbols.head?, Merges (some x) (some z) = false) ∨
      ∃ x z rest, symbols = z :: rest ∧ pushLexeme lexeme symbols = x :: rest ∧
        ∀ y, Merges (some z) y = false → Merges (some x) y = false := by
  cases lexeme with
  | blank => exact .inl rfl
  | word | semicolon | lparen | rparen | less | greater | unsupported =>
      exact .inr (.inl ⟨_, rfl, fun _ _ => rfl⟩)
  | bar =>
      cases symbols with
      | nil => exact .inr (.inl ⟨_, rfl, by simp⟩)
      | cons z rest =>
          cases z with
          | pipe => exact .inr (.inr ⟨.orIf, _, _, rfl, rfl, fun _ h => h⟩)
          | orIf => exact .inr (.inr ⟨.unsupported, _, _, rfl, rfl, fun _ _ => rfl⟩)
          | _ => exact .inr (.inl ⟨.pipe, rfl, by rintro _ ⟨⟩; rfl⟩)
  | ampersand =>
      cases symbols with
      | nil => exact .inr (.inl ⟨_, rfl, by simp⟩)
      | cons z rest =>
          cases z with
          | ampersand => exact .inr (.inr ⟨.andIf, _, _, rfl, rfl, fun _ h => h⟩)
          | andIf => exact .inr (.inr ⟨.unsupported, _, _, rfl, rfl, fun _ _ => rfl⟩)
          | _ => exact .inr (.inl ⟨.ampersand, rfl, by rintro _ ⟨⟩; rfl⟩)
  | newline =>
      cases symbols with
      | nil => exact .inr (.inl ⟨_, rfl, by simp⟩)
      | cons z rest =>
          cases z with
          | newline => exact .inr (.inr ⟨.newlines, _, _, rfl, rfl, fun _ h => h⟩)
          | newlines => exact .inr (.inr ⟨.newlines, _, _, rfl, rfl, fun _ h => h⟩)
          | _ => exact .inr (.inl ⟨.newline, rfl, by rintro _ ⟨⟩; rfl⟩)

theorem Merged.pushLexeme {symbols : List Symbol} (h : Merged none symbols)
    (lexeme : Lexeme) : Merged none (pushLexeme lexeme symbols) := by
  rcases pushLexeme_cases lexeme symbols with
    heq | ⟨x, heq, hmerges⟩ | ⟨x, z, rest, rfl, heq, hmerges⟩
  · rwa [heq]
  · rw [heq]
    refine ⟨rfl, ?_⟩
    cases symbols with
    | nil => trivial
    | cons z rest => exact ⟨hmerges z rfl, h.2⟩
  · rw [heq]
    refine ⟨rfl, ?_⟩
    cases rest with
    | nil => trivial
    | cons z' rest => exact ⟨hmerges _ h.2.1, h.2.2⟩

theorem merged_symbolsOf (lexemes : List Lexeme) :
    Merged none (symbolsOf lexemes) := by
  induction lexemes with
  | nil => trivial
  | cons lexeme lexemes ih => exact ih.pushLexeme lexeme

/-- The grammar as rules about neighbours and parentheses. -/
theorem derives_complete_iff_rules {symbols : List Symbol}
    (hmerged : Merged none symbols) :
    Derives .complete symbols ↔
      Foundation.Windows (fun x y z => goodNext x y z = true) (bordered symbols) ∧
        symbols.count .lparen = symbols.count .rparen ∧ ¬ ClosesEarly symbols := by
  rw [derives_complete_iff hmerged, ← nests_zero_iff]
  exact accepts_after none none 0 symbols rfl hmerged (by simp [Opened, ScanState.after])

end Cs111Labs.Shell
