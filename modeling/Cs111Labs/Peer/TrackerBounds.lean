import Cs111Labs.Peer.Tracker

/-!
# The bounds of the tracker's responses

`read_tracker_response` uses the task buffer as a string, and puts a NUL behind
a response.  A buffer that is full has no room for it.
-/

namespace Cs111Labs.Peer

open Foundation

/-! ## The places that are read and written -/

/-- The places of the test for a message line, up to the one that decides it. -/
def messageAccesses (buf : Nat → UInt8) (pos : Nat) : List Nat :=
  (if pos = 0 then [] else [pos - 1]) ++
    if pos = 0 || buf (pos - 1) = newline then
      pos :: if isdigit (buf pos) then
        (pos + 1) :: if isdigit (buf (pos + 1)) then [pos + 2] else []
      else []
    else []

/-- The places of a `for` loop; the last one may be that of the NUL. -/
def scanAccesses (buf : Nat → UInt8) (tail : Nat) : Nat → Nat → List Nat
  | 0, _ => []
  | n + 1, pos =>
      messageAccesses buf pos ++
        if startsMessage buf pos then
          if tail ≤ pos + 4 then []
          else (pos + 3) ::
            if isspace (buf (pos + 3)) then
              (tail - 1) ::
                if buf (tail - 1) = newline then [tail] else scanAccesses buf tail n (pos + 1)
            else scanAccesses buf tail n (pos + 1)
        else scanAccesses buf tail n (pos + 1)

/-- The places that a `read` fills. -/
def readAccesses (answer : Answer (List UInt8)) (t : Task) : List Nat :=
  (List.range (bytesRead answer t).length).map (t.tailpos + ·)

/-- The places of the `while` loop. -/
def accesses : List (Answer (List UInt8)) → Task → Option Nat → Nat → List Nat
  | answers, t, splitPos, pos =>
      scanAccesses t.buf t.tail.toNat (t.tail.toNat - 3 - pos) pos ++
        match scan t.buf t.tail.toNat (t.tail.toNat - 3 - pos) splitPos pos with
        | .complete _ => []
        | .incomplete splitPos pos =>
            match answers with
            | [] => []
            | answer :: answers =>
                let (ret, t') := readToTaskbuf answer t
                readAccesses answer t ++
                  if ret = .tbufError ∨ ret = .tbufEnd then []
                  else accesses answers t' splitPos pos

/-- The call stays inside the buffer, and so does the string that it leaves there. -/
structure KeepsInside (answers : List (Answer (List UInt8))) (t : Task) : Prop where
  places : ∀ i ∈ accesses answers t.emptied none 0, i < taskbufsiz
  returned : ∀ splitPos t' rest,
    readTrackerResponse answers t = .returned splitPos t' rest →
      t'.tail.toNat < taskbufsiz ∧ t'.buf t'.tail.toNat = 0
  /-- A response that has ended is returned or rejected. -/
  ended : .moved [] ∈ answers → ∀ t', readTrackerResponse answers t ≠ .waiting t'

/-! ## The parts of a response -/

/-- The parts that the reads bring, up to the first error or the end. -/
def parts : List (Answer (List UInt8)) → List (List UInt8)
  | [] => []
  | .again :: answers => parts answers
  | .failed :: _ => []
  | .moved [] :: _ => []
  | .moved (byte :: bytes) :: answers => (byte :: bytes) :: parts answers

/-- The bytes end with a newline, and a line with the form of a terminator starts among
them, at most 4 places before the last `length - old`. -/
def Completed (buf : Nat → UInt8) (old length : Nat) : Prop :=
  buf (length - 1) = newline ∧ ∃ pos, old ≤ pos + 4 ∧ pos + 4 < length ∧
    startsMessage buf pos = true ∧ isspace (buf (pos + 3)) = true

instance (buf : Nat → UInt8) (old length : Nat) : Decidable (Completed buf old length) :=
  decidable_of_iff (buf (length - 1) = newline ∧ ∃ pos < length, old ≤ pos + 4 ∧ pos + 4 < length ∧
      startsMessage buf pos = true ∧ isspace (buf (pos + 3)) = true)
    (and_congr_right fun _ => exists_congr fun _ => and_iff_right_of_imp fun h => by omega)

/-- The response is complete with this part, as far as there is room. -/
def Completes (received part : List UInt8) : Prop :=
  Completed (fun i => ((received ++ part).take taskbufsiz).getD i 0) received.length
    ((received ++ part).take taskbufsiz).length

instance (received part : List UInt8) : Decidable (Completes received part) :=
  inferInstanceAs (Decidable (Completed _ _ _))

/-- The part that fills the buffer is the first with which the response is complete. -/
def FillsUp (received : List UInt8) (parts : List (List UInt8)) : Prop :=
  ∃ before part after, parts = before ++ part :: after ∧
    Completes (received ++ before.flatten) part ∧
    taskbufsiz ≤ (received ++ before.flatten ++ part).length ∧
    ∀ earlier part' later, before = earlier ++ part' :: later →
      ¬ Completes (received ++ earlier.flatten) part'

section Scan

variable {buf buf' : Nat → UInt8} {tail pos n old : Nat} {splitPos : Option Nat}

theorem startsMessage_accesses (hpos : pos + 3 < tail) :
    ∀ i ∈ messageAccesses buf pos, i < tail := by
  intro i hi
  simp only [messageAccesses] at hi
  split_ifs at hi <;> simp at hi <;> omega

/-- Only the NUL is put at the tail. -/
theorem scanAccesses_spec (hn : pos + n + 3 ≤ tail ∨ n = 0) :
    (∀ first, scan buf tail n splitPos pos = .complete first →
      tail ∈ scanAccesses buf tail n pos) ∧
    ∀ i ∈ scanAccesses buf tail n pos, i < tail ∨
      i = tail ∧ ∃ first, scan buf tail n splitPos pos = .complete first := by
  induction n generalizing pos splitPos with
  | zero => simp [scan, scanAccesses]
  | succ n ih =>
      have hmessage : ∀ i ∈ messageAccesses buf pos, i < tail :=
        startsMessage_accesses (by omega)
      rw [scan, scanAccesses]
      by_cases hstarts : startsMessage buf pos = true
      · rw [if_pos hstarts, if_pos hstarts]
        by_cases hbreak : tail ≤ pos + 4
        · simp only [if_pos hbreak, List.append_nil]
          exact ⟨by simp, fun i hi => .inl (hmessage i hi)⟩
        · obtain ⟨hcomplete, hplaces⟩ := @ih (pos + 1) (some (splitPos.getD pos)) (by omega)
          simp only [if_neg hbreak]
          by_cases hspace : isspace (buf (pos + 3)) = true
          · by_cases hnewline : buf (tail - 1) = newline
            · simp only [hspace, hnewline, if_true, decide_true, Bool.and_self]
              refine ⟨by simp, fun i hi => ?_⟩
              simp only [List.mem_append, List.mem_cons, List.not_mem_nil, or_false] at hi
              rcases hi with hi | rfl | rfl | rfl
              · exact .inl (hmessage i hi)
              · exact .inl (by omega)
              · exact .inl (by omega)
              · exact .inr ⟨rfl, _, rfl⟩
            · simp only [hspace, hnewline, if_true, if_false, decide_false, Bool.and_false,
                Bool.false_eq_true]
              refine ⟨fun first h => by simp [hcomplete first h], fun i hi => ?_⟩
              simp only [List.mem_append, List.mem_cons] at hi
              rcases hi with hi | rfl | rfl | hi
              · exact .inl (hmessage i hi)
              · exact .inl (by omega)
              · exact .inl (by omega)
              · exact hplaces i hi
          · simp only [hspace, if_false, Bool.false_and, Bool.false_eq_true]
            refine ⟨fun first h => by simp [hcomplete first h], fun i hi => ?_⟩
            simp only [List.mem_append, List.mem_cons] at hi
            rcases hi with hi | rfl | hi
            · exact .inl (hmessage i hi)
            · exact .inl (by omega)
            · exact hplaces i hi
      · obtain ⟨hcomplete, hplaces⟩ := @ih (pos + 1) splitPos (by omega)
        rw [if_neg hstarts, if_neg hstarts]
        refine ⟨fun first h => List.mem_append_right _ (hcomplete first h), fun i hi => ?_⟩
        rcases List.mem_append.mp hi with hi | hi
        · exact .inl (hmessage i hi)
        · exact hplaces i hi

/-- Where a scan of the first `old` bytes has stopped. -/
def Stopped (buf : Nat → UInt8) (old pos : Nat) : Prop :=
  pos = old - 4 ∨ 4 ≤ old ∧ pos + 3 = old ∧ startsMessage buf (old - 4) = false

/-- The scan from `pos` completes the response. -/
def Ahead (buf : Nat → UInt8) (tail pos : Nat) : Prop :=
  buf (tail - 1) = newline ∧ ∃ q, pos ≤ q ∧ q + 4 < tail ∧
    startsMessage buf q = true ∧ isspace (buf (q + 3)) = true

theorem ahead_succ_iff (hpos : ¬ (pos + 4 < tail ∧ startsMessage buf pos = true ∧
    isspace (buf (pos + 3)) = true ∧ buf (tail - 1) = newline)) :
    Ahead buf tail (pos + 1) ↔ Ahead buf tail pos := by
  constructor
  · rintro ⟨hnewline, q, hle, hq⟩
    exact ⟨hnewline, q, by omega, hq⟩
  · rintro ⟨hnewline, q, hle, hlt, hstarts, hspace⟩
    have hne : q ≠ pos := by
      rintro rfl
      exact hpos ⟨hlt, hstarts, hspace, hnewline⟩
    exact ⟨hnewline, q, by omega, hlt, hstarts, hspace⟩

theorem scan_ahead (splitPos : Option Nat) (hn : n = tail - 3 - pos)
    (hstop : tail ≤ pos + 3 → Stopped buf tail pos) :
    (Ahead buf tail pos ∧ ∃ first, scan buf tail n splitPos pos = .complete first) ∨
    ¬ Ahead buf tail pos ∧ ∃ splitPos' pos', Stopped buf tail pos' ∧
      scan buf tail n splitPos pos = .incomplete splitPos' pos' := by
  induction n generalizing pos splitPos with
  | zero =>
      refine .inr ⟨?_, splitPos, pos, hstop (by omega), rfl⟩
      rintro ⟨-, q, hle, hlt, -⟩
      omega
  | succ n ih =>
      rw [scan]
      by_cases hstarts : startsMessage buf pos = true
      · rw [if_pos hstarts]
        by_cases hbreak : tail ≤ pos + 4
        · rw [if_pos hbreak]
          refine .inr ⟨?_, _, pos, .inl (by omega), rfl⟩
          rintro ⟨-, q, hle, hlt, -⟩
          omega
        · rw [if_neg hbreak]
          by_cases hend : isspace (buf (pos + 3)) = true ∧ buf (tail - 1) = newline
          · refine .inl ⟨⟨hend.2, pos, le_rfl, by omega, hstarts, hend.1⟩, ?_⟩
            exact ⟨splitPos.getD pos, by simp [hend.1, hend.2]⟩
          · have hgo : (isspace (buf (pos + 3)) && decide (buf (tail - 1) = newline)) = false := by
              simpa using hend
            rw [← ahead_succ_iff fun h => hend h.2.2, hgo]
            exact ih _ (by omega) (by omega)
      · rw [if_neg hstarts, ← ahead_succ_iff fun h => hstarts h.2.1]
        refine ih _ (by omega) fun hle => .inr ⟨by omega, by omega, ?_⟩
        have hlast : tail - 4 = pos := by omega
        rw [hlast]
        simpa using hstarts

/-- A scan that goes on where the one of the first `old` bytes has stopped. -/
theorem scan_cases (splitPos : Option Nat) (h : Stopped buf old pos) (hold : old ≤ tail) :
    (Completed buf old tail ∧
      ∃ first, scan buf tail (tail - 3 - pos) splitPos pos = .complete first) ∨
    ¬ Completed buf old tail ∧ ∃ splitPos' pos', Stopped buf tail pos' ∧
      scan buf tail (tail - 3 - pos) splitPos pos = .incomplete splitPos' pos' := by
  have hahead : Ahead buf tail pos ↔ Completed buf old tail := by
    refine and_congr_right fun _ => exists_congr fun q => ?_
    rcases h with rfl | ⟨-, hpos, hnot⟩
    · rw [Nat.sub_le_iff_le_add]
    · refine ⟨fun hq => ⟨by omega, hq.2⟩, fun hq => ⟨?_, hq.2⟩⟩
      by_contra hlt
      have hlast : q = old - 4 := by omega
      rw [← hlast, hq.2.2.1] at hnot
      cases hnot
  rw [← hahead]
  refine scan_ahead splitPos rfl fun hle => ?_
  rcases h with rfl | ⟨hold', hpos, hnot⟩
  · exact .inl (by omega)
  · obtain rfl : old = tail := by omega
    exact .inr ⟨hold', hpos, hnot⟩

theorem scan_places (h : Stopped buf old pos) (hold : old ≤ tail) (htail : tail ≤ taskbufsiz) :
    (∀ i ∈ scanAccesses buf tail (tail - 3 - pos) pos, i < taskbufsiz) ↔
      (Completed buf old tail → tail < taskbufsiz) := by
  obtain ⟨hcomplete, hplaces⟩ := @scanAccesses_spec buf tail pos (tail - 3 - pos) none (by omega)
  rcases scan_cases none h hold with ⟨hc, first, hscan⟩ | ⟨hc, next, pos', -, hscan⟩
  · refine ⟨fun hall _ => hall tail (hcomplete first hscan), fun hlt i hi => ?_⟩
    rcases hplaces i hi with hi | ⟨rfl, -⟩
    · omega
    · exact hlt hc
  · refine ⟨fun _ hc' => absurd hc' hc, fun _ i hi => ?_⟩
    rcases hplaces i hi with hi | ⟨-, first, hfirst⟩
    · omega
    · rw [hscan] at hfirst
      cases hfirst

theorem Completed.congr (h : Completed buf old tail) (hagree : ∀ i, i < tail → buf i = buf' i) :
    Completed buf' old tail := by
  obtain ⟨hnewline, pos, hle, hlt, hstarts, hspace⟩ := h
  refine ⟨?_, pos, hle, hlt, ?_, ?_⟩
  · rw [← hagree _ (by omega), hnewline]
  · rw [← startsMessage_congr hagree (by omega), hstarts]
  · rw [← hagree _ (by omega), hspace]

theorem Stopped.congr (h : Stopped buf old pos) (hagree : ∀ i, i < old → buf i = buf' i) :
    Stopped buf' old pos :=
  h.imp_right fun ⟨hold, hpos, hnot⟩ =>
    ⟨hold, hpos, by rw [← startsMessage_congr hagree (by omega), hnot]⟩

end Scan

/-! ## The run -/

section Run

variable {t t' : Task} {answers rest : List (Answer (List UInt8))} {received part : List UInt8}
  {parts : List (List UInt8)} {old pos splitPos : Nat} {splitPos' : Option Nat}

theorem readAccesses_lt (answer : Answer (List UInt8)) (h : t.Bounded) :
    ∀ i ∈ readAccesses answer t, i < taskbufsiz := by
  intro i hi
  obtain ⟨k, hk, rfl⟩ := List.mem_map.mp hi
  have hroom := (t.readSize_le h).2
  have hlen : (bytesRead answer t).length ≤ t.readSize := by
    cases answer <;> simp [bytesRead]
  rw [List.mem_range] at hk
  omega

theorem received_bounded (h : received.length ≤ taskbufsiz) : (t.received received).Bounded := by
  have hcount : (t.received received).count = received.length := by
    change (BitVec.ofNat 32 received.length - 0).toNat = received.length
    unfold taskbufsiz at h
    simp
    omega
  rw [Task.Bounded, hcount]
  exact h

theorem store_eq_getD (cells : Nat → UInt8) (bytes : List UInt8) (i : Nat)
    (hi : i < bytes.length) : Ring.store cells 0 bytes i = bytes.getD i 0 := by
  rw [shows_store cells bytes i hi, List.getD_eq_getElem?_getD, List.getElem?_eq_getElem hi]
  rfl

theorem completes_iff (cells : Nat → UInt8) (received part : List UInt8) :
    Completes received part ↔
      Completed (Ring.store cells 0 ((received ++ part).take taskbufsiz)) received.length
        ((received ++ part).take taskbufsiz).length :=
  ⟨fun h => Completed.congr h fun i hi => (store_eq_getD cells _ i hi).symm,
    fun h => h.congr (store_eq_getD cells _)⟩

/-- A full buffer takes no more. -/
theorem Completes.lt (h : Completes received part) : received.length < taskbufsiz := by
  obtain ⟨-, pos, hle, hlt, -⟩ := h
  rw [List.length_take] at hlt
  omega

theorem FillsUp.lt (h : FillsUp received parts) : received.length < taskbufsiz := by
  obtain ⟨before, part, after, -, hcompletes, -⟩ := h
  have hlt := hcompletes.lt
  rw [List.length_append] at hlt
  omega

theorem fillsUp_append_iff (h : ¬ Completes received part) :
    FillsUp (received ++ part) parts ↔ FillsUp received (part :: parts) := by
  constructor
  · rintro ⟨before, last, after, rfl, hcompletes, hfull, hfirst⟩
    refine ⟨part :: before, last, after, rfl, ?_, ?_, fun earlier part' later heq => ?_⟩
    · rwa [List.flatten_cons, ← List.append_assoc]
    · rwa [List.flatten_cons, ← List.append_assoc]
    · cases earlier with
      | nil =>
          obtain ⟨rfl, -⟩ := List.cons.inj heq
          rwa [List.flatten_nil, List.append_nil]
      | cons first earlier =>
          obtain ⟨rfl, htail⟩ := List.cons.inj heq
          rw [List.flatten_cons, ← List.append_assoc]
          exact hfirst earlier part' later htail
  · rintro ⟨before, last, after, heq, hcompletes, hfull, hfirst⟩
    cases before with
    | nil =>
        obtain ⟨rfl, -⟩ := List.cons.inj heq
        rw [List.flatten_nil, List.append_nil] at hcompletes
        exact absurd hcompletes h
    | cons first before =>
        obtain ⟨rfl, htail⟩ := List.cons.inj heq
        rw [List.flatten_cons, ← List.append_assoc] at hcompletes hfull
        refine ⟨before, last, after, htail, hcompletes, hfull, fun earlier part' later hb => ?_⟩
        have hnot := hfirst (part :: earlier) part' later (by rw [hb]; rfl)
        rwa [List.flatten_cons, ← List.append_assoc] at hnot

/-- What the first part decides. -/
theorem fillsUp_cons_iff :
    FillsUp received (part :: parts) ↔
      if Completes received part then taskbufsiz ≤ (received ++ part).length
      else FillsUp ((received ++ part).take taskbufsiz) parts := by
  split_ifs with h
  · constructor
    · rintro ⟨before, last, after, heq, -, hfull, hfirst⟩
      cases before with
      | nil =>
          obtain ⟨rfl, -⟩ := List.cons.inj heq
          rwa [List.flatten_nil, List.append_nil] at hfull
      | cons first before =>
          obtain ⟨rfl, -⟩ := List.cons.inj heq
          refine absurd ?_ (hfirst [] part before rfl)
          rwa [List.flatten_nil, List.append_nil]
    · intro hfull
      refine ⟨[], part, parts, rfl, ?_, ?_, by simp⟩
      · rwa [List.flatten_nil, List.append_nil]
      · rwa [List.flatten_nil, List.append_nil]
  · rw [← fillsUp_append_iff h]
    by_cases hfits : (received ++ part).length ≤ taskbufsiz
    · rw [List.take_of_length_le hfits]
    · refine iff_of_false (fun hfills => hfits hfills.lt.le) fun hfills => ?_
      have hlt := hfills.lt
      rw [List.length_take] at hlt
      omega

theorem not_fillsUp_nil : ¬ FillsUp received [] := by
  rintro ⟨before, part, after, heq, -⟩
  simp at heq

theorem accesses_of_completed (answers : List (Answer (List UInt8))) (t : Task)
    (splitPos : Option Nat) (hlen : received.length ≤ taskbufsiz) (hold : old ≤ received.length)
    (hstop : Stopped (Ring.store t.buf 0 received) old pos)
    (hc : Completed (Ring.store t.buf 0 received) old received.length) :
    (∀ i ∈ accesses answers (t.received received) splitPos pos, i < taskbufsiz) ↔
      received.length < taskbufsiz := by
  have hbuf : (t.received received).buf = Ring.store t.buf 0 received := rfl
  rcases scan_cases splitPos hstop hold with ⟨-, first, hscan⟩ | ⟨hnot, -⟩
  · rw [accesses, Task.received_tail hlen, hbuf, hscan, List.append_nil,
      scan_places hstop hold hlen, forall_prop_of_true hc]
  · exact absurd hc hnot

/-- The response is not complete: what follows is another read. -/
theorem accesses_of_not_completed (t : Task) (splitPos : Option Nat)
    (hlen : received.length ≤ taskbufsiz) (hold : old ≤ received.length)
    (hstop : Stopped (Ring.store t.buf 0 received) old pos)
    (hc : ¬ Completed (Ring.store t.buf 0 received) old received.length) :
    (∀ i ∈ accesses [] (t.received received) splitPos pos, i < taskbufsiz) ∧
      ∃ next pos', Stopped (Ring.store t.buf 0 received) received.length pos' ∧
        ∀ answer answers,
          (∀ i ∈ accesses (answer :: answers) (t.received received) splitPos pos,
            i < taskbufsiz) ↔
          ((readToTaskbuf answer (t.received received)).1 = .tbufError ∨
            (readToTaskbuf answer (t.received received)).1 = .tbufEnd) ∨
          ∀ i ∈ accesses answers (readToTaskbuf answer (t.received received)).2 next pos',
            i < taskbufsiz := by
  have hbuf : (t.received received).buf = Ring.store t.buf 0 received := rfl
  have hscanned := (scan_places hstop hold hlen).2 fun h => absurd h hc
  rcases scan_cases splitPos hstop hold with ⟨h, -⟩ | ⟨-, next, pos', hstop', hscan⟩
  · exact absurd h hc
  · refine ⟨?_, next, pos', hstop', fun answer answers => ?_⟩
    · rw [accesses, Task.received_tail hlen, hbuf, hscan, List.append_nil]
      exact hscanned
    · rw [accesses, Task.received_tail hlen, hbuf, hscan, List.forall_mem_append,
        and_iff_right hscanned, List.forall_mem_append,
        and_iff_right (readAccesses_lt answer (received_bounded hlen))]
      split_ifs with hends <;> simp [hends]

/-- The places of a run from a scan of what was received. -/
theorem accesses_iff (answers : List (Answer (List UInt8))) (t : Task) (splitPos : Option Nat)
    (hlen : received.length ≤ taskbufsiz) (hold : old ≤ received.length)
    (hstop : Stopped (Ring.store t.buf 0 received) old pos) :
    (∀ i ∈ accesses answers (t.received received) splitPos pos, i < taskbufsiz) ↔
      if Completed (Ring.store t.buf 0 received) old received.length then
        received.length < taskbufsiz
      else ¬ FillsUp received (Peer.parts answers) := by
  induction answers generalizing received old pos splitPos with
  | nil =>
      split_ifs with hc
      · exact accesses_of_completed [] t splitPos hlen hold hstop hc
      · exact iff_of_true (accesses_of_not_completed t splitPos hlen hold hstop hc).1
          not_fillsUp_nil
  | cons answer answers ih =>
      split_ifs with hc
      · exact accesses_of_completed _ t splitPos hlen hold hstop hc
      obtain ⟨-, next, pos', hstop', hread⟩ :=
        accesses_of_not_completed t splitPos hlen hold hstop hc
      rw [hread]
      cases answer with
      | again =>
          -- Nothing new can be complete before another part comes.
          have hagain : ¬ Completed (Ring.store t.buf 0 received) received.length
              received.length := by
            rintro ⟨-, pos, hle, hlt, -⟩
            omega
          have hrest := ih next hlen le_rfl hstop'
          rw [if_neg hagain] at hrest
          simpa [readToTaskbuf, Peer.parts] using hrest
      | failed => simp [readToTaskbuf, Peer.parts, not_fillsUp_nil]
      | moved bytes =>
          cases bytes with
          | nil => simp [readToTaskbuf, Peer.parts, not_fillsUp_nil]
          | cons byte bytes =>
              rcases hlen.eq_or_lt with hfull | hroom
              · exact iff_of_true (.inl (.inr (Task.read_received_full t _ hfull)))
                  fun h => absurd h.lt (by omega)
              · rw [Task.read_received_take t received (List.cons_ne_nil byte bytes) hroom]
                have hshorter : received.length ≤
                    ((received ++ byte :: bytes).take taskbufsiz).length := by
                  rw [List.length_take, List.length_append]
                  omega
                have hagree : ∀ i, i < received.length → Ring.store t.buf 0 received i =
                    Ring.store t.buf 0 ((received ++ byte :: bytes).take taskbufsiz) i := by
                  intro i hi
                  rw [store_eq_getD _ _ i hi, store_eq_getD _ _ i (by omega),
                    List.getD_eq_getElem?_getD, List.getD_eq_getElem?_getD,
                    List.getElem?_take_of_lt (by omega), List.getElem?_append_left hi]
                have hrest := ih next (by simp) hshorter (hstop'.congr hagree)
                have hparts : Peer.parts (.moved (byte :: bytes) :: answers) =
                    (byte :: bytes) :: Peer.parts answers := rfl
                rw [hparts, fillsUp_cons_iff, hrest]
                simp only [reduceCtorEq, or_self, false_or, ← completes_iff]
                split_ifs
                · rw [List.length_take]
                  omega
                · rfl

/-- The NUL is put at the tail of what is returned. -/
theorem readMore_returned (answers : List (Answer (List UInt8))) {t : Task} {splitPos : Option Nat}
    {first : Nat} (h : readMore answers t splitPos pos = .returned first t' rest) :
    t'.tail.toNat ∈ accesses answers t splitPos pos ∧ t'.buf t'.tail.toNat = 0 := by
  have hnul := (@scanAccesses_spec t.buf t.tail.toNat pos (t.tail.toNat - 3 - pos) splitPos
    (by omega)).1
  induction answers generalizing t splitPos pos with
  | nil =>
      rw [readMore] at h
      rw [accesses]
      cases hscan : scan t.buf t.tail.toNat (t.tail.toNat - 3 - pos) splitPos pos with
      | complete found =>
          rw [hscan] at h
          cases h
          exact ⟨List.mem_append_left _ (hnul _ hscan), Function.update_self ..⟩
      | incomplete next pos' =>
          rw [hscan] at h
          cases h
  | cons answer answers ih =>
      rw [readMore] at h
      rw [accesses]
      cases hscan : scan t.buf t.tail.toNat (t.tail.toNat - 3 - pos) splitPos pos with
      | complete found =>
          rw [hscan] at h
          cases h
          exact ⟨List.mem_append_left _ (hnul _ hscan), Function.update_self ..⟩
      | incomplete next pos' =>
          simp only [hscan] at h
          split_ifs at h with hends
          have hrest := ih h (scanAccesses_spec (by omega)).1
          simp only [if_neg hends, List.mem_append]
          exact ⟨.inr (.inr hrest.1), hrest.2⟩

theorem readMore_not_waiting (answers : List (Answer (List UInt8))) {t : Task}
    {splitPos : Option Nat} (h : .moved [] ∈ answers) :
    readMore answers t splitPos pos ≠ .waiting t' := by
  induction answers generalizing t splitPos pos with
  | nil => cases h
  | cons answer answers ih =>
      rw [readMore]
      cases hscan : scan t.buf t.tail.toNat (t.tail.toNat - 3 - pos) splitPos pos with
      | complete found => simp
      | incomplete next pos' =>
          simp only
          rcases List.mem_cons.mp h with rfl | h
          · simp [readToTaskbuf]
          · split_ifs
            · simp
            · exact ih h

end Run

theorem places_inside_iff (answers : List (Answer (List UInt8))) (t : Task) :
    (∀ i ∈ accesses answers t.emptied none 0, i < taskbufsiz) ↔ ¬ FillsUp [] (parts answers) := by
  have hnot : ¬ Completed (Ring.store t.buf 0 []) 0 0 := by
    rintro ⟨-, pos, -, hlt, -⟩
    omega
  have hstop : Stopped (Ring.store t.buf 0 []) 0 0 := .inl rfl
  have hplaces := accesses_iff answers t none (by simp) le_rfl hstop
  rw [List.length_nil, if_neg hnot, Task.received_nil] at hplaces
  exact hplaces

theorem readTrackerResponse_inside_iff (answers : List (Answer (List UInt8))) (t : Task) :
    KeepsInside answers t ↔ ¬ FillsUp [] (parts answers) := by
  rw [← places_inside_iff answers t]
  refine ⟨fun h => h.places, fun h => ⟨h, fun splitPos t' rest hreturned => ?_, fun hend t' => ?_⟩⟩
  · obtain ⟨hmem, hnul⟩ := readMore_returned answers hreturned
    exact ⟨h _ hmem, hnul⟩
  · exact readMore_not_waiting answers hend

/-- `200 `, a text and a newline, as long as the buffer. -/
def fullResponse : List UInt8 :=
  [50, 48, 48, 32] ++ (List.replicate 8187 120 ++ [newline])

/-- The NUL behind a response of 8192 bytes is outside of the buffer. -/
theorem fullResponse_not_inside :
    ¬ ∀ (t : Task) (bytes : List UInt8), bytes.length ≤ taskbufsiz →
      KeepsInside [.moved bytes, .moved []] t := by
  intro h
  have hbody : ([50, 48, 48, 32] ++ List.replicate 8187 (120 : UInt8)).length = 8191 := by
    rw [List.length_append, List.length_replicate]
    rfl
  have hlength : fullResponse.length = taskbufsiz := by
    rw [fullResponse, ← List.append_assoc, List.length_append, hbody]
    rfl
  have hinside := (places_inside_iff _ _).mp
    (h (taskNew .tracker fun _ => 0) fullResponse hlength.le).places
  have hparts : parts [.moved fullResponse, .moved []] = [fullResponse] := rfl
  refine hinside ⟨[], fullResponse, [], hparts, ?_, hlength.ge, by simp⟩
  rw [Completes, List.flatten_nil, List.append_nil, List.nil_append,
    List.take_of_length_le hlength.le, hlength]
  refine ⟨?_, 0, Nat.zero_le _, by decide, ?_, ?_⟩
  · have hlast : fullResponse[8191]? = some newline := by
      rw [fullResponse, ← List.append_assoc, ← hbody, List.getElem?_concat_length]
    change fullResponse.getD 8191 0 = newline
    rw [List.getD_eq_getElem?_getD, hlast]
    rfl
  · rfl
  · rfl

end Cs111Labs.Peer
