import Cs111Labs.Peer.Tracker

/-!
# The data portion of a response

`split_pos` is the first line that starts with three digits.  Message lines have
`-` or white space behind them; the test for `split_pos` does not ask for that.
-/

namespace Cs111Labs.Peer

open Foundation

section Lines

variable {lines : List (List UInt8)} {after : List UInt8} {pos : Nat}

/-- Behind a newline of the first lines another one of them starts. -/
theorem line_at (hlines : ∀ line ∈ lines, newline ∉ line)
    (hpos : pos < (lines.flatMap (· ++ [newline])).length)
    (hstart : pos = 0 ∨
      (lines.flatMap (· ++ [newline]) ++ after)[pos - 1]? = some newline) :
    ∃ line ∈ lines, ∃ rest,
      (lines.flatMap (· ++ [newline]) ++ after).drop pos = line ++ newline :: rest := by
  induction lines generalizing pos with
  | nil => exact absurd hpos (Nat.not_lt_zero pos)
  | cons line lines ih =>
      set rest := lines.flatMap (· ++ [newline]) ++ after with hrest
      have hbytes : (line :: lines).flatMap (· ++ [newline]) ++ after =
          line ++ newline :: rest := by simp [hrest]
      rw [hbytes] at hstart ⊢
      by_cases hzero : pos = 0
      · subst hzero
        exact ⟨line, .head _, rest, rfl⟩
      · have hnewline := hstart.resolve_left hzero
        have hbeyond : line.length < pos := by
          by_contra hinside
          rw [List.getElem?_append_left (by omega)] at hnewline
          exact hlines line (.head _) (List.mem_of_getElem? hnewline)
        obtain ⟨k, rfl⟩ := Nat.exists_eq_add_of_lt hbeyond
        have hk : k < (lines.flatMap (· ++ [newline])).length := by
          simp only [List.flatMap_cons, List.length_append, List.length_singleton] at hpos
          omega
        have hstart' : k = 0 ∨ rest[k - 1]? = some newline := by
          by_cases hk0 : k = 0
          · exact .inl hk0
          · right
            rw [List.getElem?_append_right (by omega)] at hnewline
            rwa [show line.length + k + 1 - 1 - line.length = k - 1 + 1 by omega,
              List.getElem?_cons_succ] at hnewline
        obtain ⟨l, hl, tail, hdrop⟩ := ih (fun l hl => hlines l (.tail _ hl)) hk hstart'
        refine ⟨l, .tail _ hl, tail, ?_⟩
        rw [← hdrop, Nat.add_assoc, ← List.drop_drop, List.drop_left]
        rfl

/-- Each of the lines starts somewhere, at the beginning or behind a newline. -/
theorem exists_line_at {line : List UInt8} (hline : line ∈ lines) :
    ∃ pos < (lines.flatMap (· ++ [newline])).length,
      (pos = 0 ∨ (lines.flatMap (· ++ [newline]) ++ after)[pos - 1]? = some newline) ∧
      ∃ rest, (lines.flatMap (· ++ [newline]) ++ after).drop pos = line ++ newline :: rest := by
  obtain ⟨before, behind, rfl⟩ := List.append_of_mem hline
  refine ⟨(before.flatMap (· ++ [newline])).length, by simp, ?_, ?_⟩
  · rcases List.eq_nil_or_concat before with rfl | ⟨first, last, rfl⟩
    · exact .inl rfl
    · exact .inr (by simp)
  · exact ⟨behind.flatMap (· ++ [newline]) ++ after, by simp⟩

end Lines

/-- The line begins with three digits. -/
def startsWithDigits (line : List UInt8) : Bool :=
  codeThen (fun _ => true) (line ++ [newline])

theorem firstMessage_eq_some {buf : Nat → UInt8} {pos n : Nat} :
    firstMessage buf n = some pos ↔ startsMessage buf pos = true ∧ pos < n ∧
      ∀ k < pos, startsMessage buf k = false := by
  rw [firstMessage, List.find?_range_eq_some, List.mem_range]
  simp only [Bool.not_eq_eq_eq_not, Bool.not_true]

namespace Response

variable {r : Response} {buf : Nat → UInt8} {pos : Nat}

/-- The data lines. -/
def dataPortion (r : Response) : List UInt8 := r.data.flatMap (· ++ [newline])

/-- The context lines and the terminator line. -/
def messagePortion (r : Response) : List UInt8 :=
  r.context.flatMap (· ++ [newline]) ++ (r.terminator ++ [newline])

theorem bytes_eq (r : Response) : r.bytes = r.dataPortion ++ r.messagePortion := by
  simp [bytes, body, dataPortion, messagePortion]

theorem messagePortion_code (r : Response) :
    codeThen (fun _ => true) r.messagePortion = true := by
  have hweak : ∀ {p : UInt8 → Bool} {line : List UInt8}, codeThen p line = true →
      codeThen (fun _ => true) line = true := by
    intro p line h
    match line with
    | [] | [_] | [_, _] | [_, _, _] => simp [codeThen] at h
    | _ :: _ :: _ :: _ :: _ =>
        simp only [codeThen, Bool.and_eq_true] at h ⊢
        exact ⟨h.1, trivial⟩
  unfold messagePortion
  cases hcontext : r.context with
  | nil =>
      simp only [List.flatMap_nil, List.nil_append]
      exact codeThen_append_left (hweak r.terminator_line.2) _
  | cons line lines =>
      simp only [List.flatMap_cons, List.append_assoc]
      exact codeThen_append_left
        (hweak (r.context_line line (by simp [hcontext])).2) _

theorem length_messagePortion (r : Response) : 5 ≤ r.messagePortion.length := by
  have hterminator := r.length_terminator
  simp only [messagePortion, List.length_append, List.length_singleton]
  omega

theorem startsMessage_iff (hshows : Shows buf r.bytes) (hpos : pos ≤ r.dataPortion.length) :
    startsMessage buf pos = true ↔ (pos = 0 ∨ r.bytes[pos - 1]? = some newline) ∧
      codeThen (fun _ => true) (r.bytes.drop pos) = true := by
  have hlength := r.length_messagePortion
  have hbytes : r.bytes.length = r.dataPortion.length + r.messagePortion.length := by
    rw [r.bytes_eq, List.length_append]
  have hprevious : pos = 0 ∨ r.bytes[pos - 1]? = some (buf (pos - 1)) := by
    right
    rw [List.getElem?_eq_getElem (by omega), hshows (pos - 1) (by omega)]
  rw [hshows.codeThen (by omega)]
  simp only [startsMessage, Bool.and_eq_true, Bool.or_eq_true, decide_eq_true_eq, and_true,
    and_assoc]
  refine and_congr_left fun _ => or_congr_right' fun hne => ?_
  rw [hprevious.resolve_left hne, Option.some.injEq]

/-- The message portion starts like a message line. -/
theorem startsMessage_split (hshows : Shows buf r.bytes) :
    startsMessage buf r.dataPortion.length = true := by
  rw [startsMessage_iff hshows le_rfl, r.bytes_eq, List.drop_left]
  refine ⟨?_, r.messagePortion_code⟩
  unfold dataPortion
  rcases List.eq_nil_or_concat r.data with hnil | ⟨first, last, heq⟩
  · exact .inl (by rw [hnil]; rfl)
  · exact .inr (by simp [heq])

theorem startsMessage_data_iff (hshows : Shows buf r.bytes) :
    (∃ pos < r.dataPortion.length, startsMessage buf pos = true) ↔
      ∃ line ∈ r.data, startsWithDigits line = true := by
  constructor
  · rintro ⟨pos, hpos, hstarts⟩
    obtain ⟨hstart, hcode⟩ := (startsMessage_iff hshows hpos.le).1 hstarts
    rw [r.bytes_eq] at hstart hcode
    obtain ⟨line, hline, rest, hdrop⟩ :=
      line_at (fun line hline => (r.data_line line hline).1) hpos hstart
    refine ⟨line, hline, ?_⟩
    rw [startsWithDigits, ← codeThen_append line rest, ← hdrop]
    exact hcode
  · rintro ⟨line, hline, hdigits⟩
    obtain ⟨pos, hpos, hstart, rest, hdrop⟩ :=
      exists_line_at hline
    refine ⟨pos, hpos, (startsMessage_iff hshows (Nat.le_of_lt hpos)).2 ?_⟩
    rw [r.bytes_eq]
    refine ⟨hstart, ?_⟩
    rw [show (r.dataPortion ++ r.messagePortion).drop pos = _ from hdrop, codeThen_append]
    exact hdigits

end Response

/-- One read brings the whole response, and the caller is told where the data ends. -/
def FindsData (t : Task) (r : Response) : Prop :=
  ∃ t', readTrackerResponse [.moved r.bytes] t = .returned r.dataPortion.length t' [] ∧
    Shows t'.buf (r.dataPortion ++ r.messagePortion)

theorem Task.answered_shows (t : Task) (r : Response) : Shows (t.answered r).buf r.bytes := by
  intro i hi
  have hne : i ≠ r.bytes.length := hi.ne
  simp only [Task.answered, Function.update_of_ne hne]
  exact shows_store t.buf r.bytes i hi

theorem findsData_iff (t : Task) (r : Response) (hfits : r.bytes.length < taskbufsiz) :
    FindsData t r ↔ ∀ line ∈ r.data, startsWithDigits line = false := by
  have hshows := shows_store t.buf r.bytes
  have hdata := Response.startsMessage_data_iff hshows
  obtain ⟨first, hfirst, hreturns⟩ := readTrackerResponse_returns t r hfits [r.bytes]
    (by simp [Response.bytes]) (by simp) (by
      intro before after hsplit hafter
      rcases before with _ | ⟨chunk, before⟩
      · simp
      · simp_all)
  have hbody : r.dataPortion.length ≤ r.body.length := by
    simp [Response.dataPortion, Response.body]
  constructor
  · rintro ⟨t', hreturns', -⟩
    rw [List.map_singleton, hreturns'] at hreturns
    injection hreturns with heq
    subst heq
    intro line hline
    by_contra hdigits
    obtain ⟨pos, hpos, hstarts⟩ := hdata.2 ⟨line, hline, by simpa using hdigits⟩
    rw [(firstMessage_eq_some.1 hfirst).2.2 pos hpos] at hstarts
    cases hstarts
  · intro hnone
    have hsplit : firstMessage (Ring.store t.buf 0 r.bytes) (r.body.length + 1) =
        some r.dataPortion.length := by
      refine firstMessage_eq_some.2
        ⟨Response.startsMessage_split hshows, by omega, fun k hk => ?_⟩
      by_contra hstarts
      obtain ⟨line, hline, hdigits⟩ := hdata.1 ⟨k, hk, by simpa using hstarts⟩
      rw [hnone line hline] at hdigits
      cases hdigits
    obtain rfl := Option.some.inj (hfirst.symm.trans hsplit)
    refine ⟨t.answered r, hreturns, ?_⟩
    rw [← r.bytes_eq]
    exact t.answered_shows r

/-- A checksum and `200 ok`. -/
def checksumResponse (checksum : List UInt8) (hnewline : newline ∉ checksum)
    (hline : codeThen (fun c => c = 45 || isspace c) (checksum ++ [newline]) = false) :
    Response :=
  { okResponse with
    data := [checksum]
    data_line := by
      rintro line (_ | ⟨_, h⟩)
      · exact ⟨hnewline, hline⟩
      · cases h }

/-- The checksum `9a` -/
def shortChecksum : Response := checksumResponse [57, 97] (by decide) (by decide)

theorem findsData_iff_shortChecksum :
    FindsData (taskNew .tracker fun _ => 0) shortChecksum ↔
      ∀ line ∈ shortChecksum.data, startsWithDigits line = false :=
  findsData_iff _ shortChecksum (by decide)

/-- The checksum starts with three digits. -/
theorem digitsChecksum_not_findsData :
    ¬ ∀ (t : Task) (r : Response), r.bytes.length < taskbufsiz → FindsData t r := by
  intro hall
  obtain ⟨t', hreturns, -⟩ := hall (taskNew .tracker fun _ => 0)
    (checksumResponse [49, 50, 51, 97] (by decide) (by decide)) (by decide)
  cases hreturns

end Cs111Labs.Peer
