import Cs111Labs.Peer.TaskBuffer

/-!
# Responses of the tracker

`read_tracker_response` looks for the terminator line again after each read, but
only from the position that it has reached.
-/

namespace Cs111Labs.Peer

open Foundation

/-! ## `<ctype.h>` in the C locale -/

def isdigit (c : UInt8) : Bool := 48 ≤ c && c ≤ 57

def isspace (c : UInt8) : Bool := c = 32 || (9 ≤ c && c ≤ 13)

def newline : UInt8 := 10

/-! ## Reading a response -/

/-- A line starts here, with three digits. -/
def startsMessage (buf : Nat → UInt8) (pos : Nat) : Bool :=
  (pos = 0 || buf (pos - 1) = newline) &&
    isdigit (buf pos) && isdigit (buf (pos + 1)) && isdigit (buf (pos + 2))

/-- The end of the `for` loop: the response is complete, or more must be read. -/
inductive ScanResult where
  | complete (splitPos : Nat)
  | incomplete (splitPos : Option Nat) (pos : Nat)
  deriving DecidableEq, Repr

/-- The `for` loop, with the number of positions that are left.  `splitPos` is
`none` for `(size_t) -1`. -/
def scan (buf : Nat → UInt8) (tail : Nat) : Nat → Option Nat → Nat → ScanResult
  | 0, splitPos, pos => .incomplete splitPos pos
  | n + 1, splitPos, pos =>
      if startsMessage buf pos then
        let splitPos := splitPos.getD pos
        if tail ≤ pos + 4 then .incomplete (some splitPos) pos
        else if isspace (buf (pos + 3)) && buf (tail - 1) = newline then
          .complete splitPos
        else scan buf tail n (some splitPos) (pos + 1)
      else scan buf tail n splitPos (pos + 1)

inductive ReadEnd where
  /-- The split position, the task and the reads that were not made. -/
  | returned (splitPos : Nat) (t : Task) (answers : List (Answer (List UInt8)))
  /-- The call waits in `read`. -/
  | waiting (t : Task)
  | died

/-- The `while` loop. -/
def readMore : List (Answer (List UInt8)) → Task → Option Nat → Nat → ReadEnd
  | answers, t, splitPos, pos =>
      match scan t.buf t.tail.toNat (t.tail.toNat - 3 - pos) splitPos pos with
      | .complete splitPos =>
          .returned splitPos
            { t with buf := Function.update t.buf t.tail.toNat 0 } answers
      | .incomplete splitPos pos =>
          match answers with
          | [] => .waiting t
          | answer :: answers =>
              let (ret, t) := readToTaskbuf answer t
              if ret = .tbufError ∨ ret = .tbufEnd then .died
              else readMore answers t splitPos pos

def readTrackerResponse (answers : List (Answer (List UInt8))) (t : Task) : ReadEnd :=
  readMore answers t.emptied none 0

/-! ## What a scan finds -/

/-- The bytes are a response of length `length` with its terminator line at
`last`: that line alone has white space behind three digits, and is the only one
not ended by a newline before the end. -/
structure Terminated (buf : Nat → UInt8) (length last : Nat) : Prop where
  room : last + 5 ≤ length
  starts : startsMessage buf last = true
  space : isspace (buf (last + 3)) = true
  unique : ∀ pos, pos + 3 < length → startsMessage buf pos = true →
    isspace (buf (pos + 3)) = true → pos = last
  newline_iff : ∀ k, last < k → k < length → (buf k = newline ↔ k + 1 = length)

/-- The first line before `pos` that starts with three digits. -/
def firstMessage (buf : Nat → UInt8) (pos : Nat) : Option Nat :=
  (List.range pos).find? (startsMessage buf)

/-- The value of `split_pos` at `pos`, which may be looked at a second time. -/
def Split (buf : Nat → UInt8) (pos : Nat) (splitPos : Option Nat) : Prop :=
  splitPos = firstMessage buf pos ∨
    startsMessage buf pos = true ∧ splitPos = firstMessage buf (pos + 1)

section Scan

variable {buf buf' : Nat → UInt8} {length last tail pos n : Nat}
  {splitPos : Option Nat}

theorem firstMessage_succ (buf : Nat → UInt8) (pos : Nat) :
    firstMessage buf (pos + 1) =
      if startsMessage buf pos then some ((firstMessage buf pos).getD pos)
      else firstMessage buf pos := by
  unfold firstMessage
  rw [List.range_succ, List.find?_append]
  cases hfirst : (List.range pos).find? (startsMessage buf) with
  | some first => cases hstarts : startsMessage buf pos <;> simp
  | none => cases hstarts : startsMessage buf pos <;> simp [hstarts]

theorem Split.getD (h : Split buf pos splitPos) (hstarts : startsMessage buf pos = true) :
    some (splitPos.getD pos) = firstMessage buf (pos + 1) := by
  have hnext := firstMessage_succ buf pos
  rw [if_pos hstarts] at hnext
  rcases h with rfl | ⟨-, rfl⟩
  · exact hnext.symm
  · rw [hnext]
    rfl

theorem Split.next (h : Split buf pos splitPos) (hstarts : startsMessage buf pos ≠ true) :
    Split buf (pos + 1) splitPos := by
  rcases h with rfl | ⟨hstart, -⟩
  · left
    rw [firstMessage_succ, if_neg hstarts]
  · exact absurd hstart hstarts

/-- Only the terminator line of a whole response ends the scan. -/
theorem Terminated.goes_on (h : Terminated buf length last)
    (hstarts : startsMessage buf pos = true) (hpos : pos + 4 < tail)
    (htail : tail ≤ length) (hmore : pos ≠ last ∨ tail < length) :
    (isspace (buf (pos + 3)) && decide (buf (tail - 1) = newline)) = false := by
  rw [Bool.and_eq_false_iff]
  by_cases hspace : isspace (buf (pos + 3)) = true
  · have heq := h.unique pos (by omega) hstarts hspace
    have hend := h.newline_iff (tail - 1) (by omega) (by omega)
    refine .inr (decide_eq_false fun hnewline => ?_)
    have hall := hend.mp hnewline
    omega
  · exact .inl (by simpa using hspace)

/-- The whole response was read, and the terminator line is still ahead. -/
theorem scan_whole (h : Terminated buf length last) (hpos : pos ≤ last)
    (hsplit : Split buf pos splitPos) :
    ∃ first, firstMessage buf (last + 1) = some first ∧
      scan buf length (length - 3 - pos) splitPos pos = .complete first := by
  have hroom := h.room
  induction hn : last - pos generalizing pos splitPos with
  | zero =>
      obtain rfl : pos = last := by omega
      obtain ⟨n, hleft⟩ : ∃ n, length - 3 - pos = n + 1 := ⟨length - 4 - pos, by omega⟩
      have hend : buf (length - 1) = newline :=
        (h.newline_iff (length - 1) (by omega) (by omega)).mpr (by omega)
      refine ⟨splitPos.getD pos, (hsplit.getD h.starts).symm, ?_⟩
      rw [hleft, scan, if_pos h.starts, if_neg (by omega)]
      simp [h.space, hend]
  | succ m ih =>
      obtain ⟨n, hleft⟩ : ∃ n, length - 3 - pos = n + 1 := ⟨length - 4 - pos, by omega⟩
      have hrest : n = length - 3 - (pos + 1) := by omega
      rw [hleft, scan]
      by_cases hstarts : startsMessage buf pos = true
      · rw [if_pos hstarts, if_neg (by omega),
          h.goes_on hstarts (by omega) le_rfl (.inl (by omega)), hrest]
        exact ih (by omega) (.inl (hsplit.getD hstarts)) (by omega)
      · rw [if_neg hstarts, hrest]
        exact ih (by omega) (hsplit.next hstarts) (by omega)

/-- A part of a response, or one whose terminator was passed, is incomplete.  The
scan stops before the terminator if hardly more than its code was read, and
passes it otherwise. -/
theorem scan_part (h : Terminated buf length last) (pos : Nat) (splitPos : Option Nat)
    (htail : tail ≤ length)
    (hpart : last < pos ∨ tail < length) :
    ∃ splitPos' pos', scan buf tail (tail - 3 - pos) splitPos pos =
        .incomplete splitPos' pos' ∧
      (pos ≤ last → tail < last + 5 → Split buf pos splitPos →
        pos' ≤ last ∧ Split buf pos' splitPos') ∧
      (last < pos ∨ last + 5 ≤ tail → last < pos') := by
  have hroom := h.room
  induction hn : tail - 3 - pos generalizing pos splitPos with
  | zero => exact ⟨splitPos, pos, rfl, fun hpos _ hsplit => ⟨hpos, hsplit⟩, by omega⟩
  | succ n ih =>
      rw [scan]
      by_cases hstarts : startsMessage buf pos = true
      · rw [if_pos hstarts]
        by_cases hbreak : tail ≤ pos + 4
        · exact ⟨_, _, if_pos hbreak,
            fun hpos _ hsplit => ⟨hpos, .inr ⟨hstarts, hsplit.getD hstarts⟩⟩, by omega⟩
        · rw [if_neg hbreak, h.goes_on hstarts (by omega) htail (by omega)]
          obtain ⟨splitPos', pos', hscan, hshort, hlong⟩ :=
            @ih (pos + 1) (some (splitPos.getD pos)) (by omega) (by omega)
          refine ⟨splitPos', pos', hscan, fun hpos htail' hsplit => ?_, by omega⟩
          exact hshort (by omega) htail' (.inl (hsplit.getD hstarts))
      · rw [if_neg hstarts]
        obtain ⟨splitPos', pos', hscan, hshort, hlong⟩ :=
          @ih (pos + 1) splitPos (by omega) (by omega)
        refine ⟨splitPos', pos', hscan, fun hpos htail' hsplit => ?_, by omega⟩
        have hne : pos ≠ last := by
          rintro rfl
          exact hstarts h.starts
        exact hshort (by omega) htail' (hsplit.next hstarts)

theorem startsMessage_congr (hagree : ∀ i, i < tail → buf i = buf' i)
    (hpos : pos + 2 < tail) : startsMessage buf pos = startsMessage buf' pos := by
  unfold startsMessage
  rw [hagree _ (show pos - 1 < tail by omega), hagree pos (by omega),
    hagree (pos + 1) (by omega), hagree (pos + 2) hpos]

/-- A scan looks only at what was read. -/
theorem scan_congr (hagree : ∀ i, i < tail → buf i = buf' i) (hn : n ≤ tail - 3 - pos) :
    scan buf tail n splitPos pos = scan buf' tail n splitPos pos := by
  induction n generalizing pos splitPos with
  | zero => rfl
  | succ n ih =>
      simp only [scan]
      rw [startsMessage_congr hagree (by omega), hagree (pos + 3) (by omega),
        hagree (tail - 1) (by omega), ih (by omega), ih (by omega)]

end Scan

/-! ## Responses -/

/-- Three digits and a byte with this property. -/
def codeThen (p : UInt8 → Bool) : List UInt8 → Bool
  | a :: b :: c :: d :: _ => isdigit a && isdigit b && isdigit c && p d
  | _ => false

/-- The lines of a response, without their newlines. -/
structure Response where
  data : List (List UInt8)
  context : List (List UInt8)
  terminator : List UInt8
  /-- A data line does not start like a message line. -/
  data_line : ∀ line ∈ data, newline ∉ line ∧
    codeThen (fun c => c = 45 || isspace c) (line ++ [newline]) = false
  context_line : ∀ line ∈ context, newline ∉ line ∧ codeThen (· = 45) line = true
  terminator_line : newline ∉ terminator ∧ codeThen (· = 32) terminator = true

namespace Response

/-- The lines before the terminator line. -/
def body (r : Response) : List UInt8 :=
  (r.data ++ r.context).flatMap (· ++ [newline])

def bytes (r : Response) : List UInt8 := r.body ++ (r.terminator ++ [newline])

end Response

section Lines

variable {p : UInt8 → Bool} {line rest bytes : List UInt8}
  {lines : List (List UInt8)} {pos : Nat}

/-- What follows a line does not matter. -/
theorem codeThen_append (line rest : List UInt8) :
    codeThen p (line ++ newline :: rest) = codeThen p (line ++ [newline]) := by
  have hnot : isdigit newline = false := by decide
  match line with
  | [] => rcases rest with _ | ⟨_, _ | ⟨_, _ | ⟨_, _⟩⟩⟩ <;> simp [codeThen, hnot]
  | [_] => rcases rest with _ | ⟨_, _ | ⟨_, _⟩⟩ <;> simp [codeThen, hnot]
  | [_, _] => rcases rest with _ | ⟨_, _⟩ <;> simp [codeThen, hnot]
  | [_, _, _] => rfl
  | _ :: _ :: _ :: _ :: _ => rfl

theorem codeThen_append_left (h : codeThen p line = true) (rest : List UInt8) :
    codeThen p (line ++ rest) = true := by
  match line with
  | [] | [_] | [_, _] | [_, _, _] => simp [codeThen] at h
  | _ :: _ :: _ :: _ :: _ => exact h

theorem codeThen_exclusive {q : UInt8 → Bool} (h : codeThen p line = true)
    (hpq : ∀ c, p c = true → q c = false) (rest : List UInt8) :
    codeThen q (line ++ rest) = false := by
  match line with
  | [] | [_] | [_, _] | [_, _, _] => simp [codeThen] at h
  | a :: b :: c :: d :: _ =>
      have hd : p d = true := by
        simp only [codeThen, Bool.and_eq_true] at h
        exact h.2
      simp [codeThen, hpq d hd]

/-- Behind a newline another line starts, or the last one. -/
theorem line_of_start (hlines : ∀ line ∈ lines, newline ∉ line) {last : List UInt8}
    (hlast : newline ∉ last)
    (hpos : pos < (lines.flatMap (· ++ [newline]) ++ (last ++ [newline])).length)
    (hstart : pos = 0 ∨
      (lines.flatMap (· ++ [newline]) ++ (last ++ [newline]))[pos - 1]? =
        some newline) :
    (∃ line ∈ lines, ∃ rest,
      (lines.flatMap (· ++ [newline]) ++ (last ++ [newline])).drop pos =
        line ++ newline :: rest) ∨
      pos = (lines.flatMap (· ++ [newline])).length := by
  induction lines generalizing pos with
  | nil =>
      right
      simp only [List.flatMap_nil, List.nil_append, List.length_append,
        List.length_singleton, List.length_nil] at hpos hstart ⊢
      rcases hstart with hzero | hnewline
      · exact hzero
      · by_contra hne
        rw [List.getElem?_append_left (by omega)] at hnewline
        exact hlast (List.mem_of_getElem? hnewline)
  | cons line lines ih =>
      set after := lines.flatMap (· ++ [newline]) ++ (last ++ [newline]) with hafter
      have hbytes : (line :: lines).flatMap (· ++ [newline]) ++ (last ++ [newline]) =
          line ++ newline :: after := by simp [hafter]
      rw [hbytes] at hpos hstart ⊢
      by_cases hzero : pos = 0
      · subst hzero
        exact .inl ⟨line, by simp, after, rfl⟩
      · have hnewline := hstart.resolve_left hzero
        have hbeyond : line.length < pos := by
          by_contra hinside
          rw [List.getElem?_append_left (by omega)] at hnewline
          exact hlines line (by simp) (List.mem_of_getElem? hnewline)
        obtain ⟨k, rfl⟩ := Nat.exists_eq_add_of_lt hbeyond
        have hrest := @ih k (fun l hl => hlines l (by simp [hl]))
          (by simp at hpos; omega) ?_
        · rcases hrest with ⟨l, hl, rest, hdrop⟩ | hend
          · refine .inl ⟨l, by simp [hl], rest, ?_⟩
            rw [← hdrop, Nat.add_assoc, ← List.drop_drop, List.drop_left]
            simp
          · right
            simp [hend]
            omega
        · by_cases hk : k = 0
          · exact .inl hk
          · right
            rw [List.getElem?_append_right (by omega)] at hnewline
            rw [← hnewline]
            have hindex : line.length + k + 1 - 1 - line.length = (k - 1) + 1 := by omega
            rw [hindex, List.getElem?_cons_succ]

end Lines

/-- `buf` starts with these bytes. -/
def Shows (buf : Nat → UInt8) (bytes : List UInt8) : Prop :=
  ∀ i, (h : i < bytes.length) → buf i = bytes[i]

section Shown

variable {buf : Nat → UInt8} {bytes : List UInt8} {pos : Nat} {p : UInt8 → Bool}

theorem Shows.codeThen (h : Shows buf bytes) (hpos : pos + 3 < bytes.length) :
    Peer.codeThen p (bytes.drop pos) =
      (isdigit (buf pos) && isdigit (buf (pos + 1)) && isdigit (buf (pos + 2)) &&
        p (buf (pos + 3))) := by
  rw [List.drop_eq_getElem_cons (by omega), List.drop_eq_getElem_cons (by omega),
    List.drop_eq_getElem_cons (by omega), List.drop_eq_getElem_cons (by omega)]
  simp only [Peer.codeThen]
  rw [h pos (by omega), h (pos + 1) (by omega), h (pos + 2) (by omega),
    h (pos + 3) (by omega)]

theorem Shows.start (h : Shows buf bytes) (hpos : pos < bytes.length)
    (hstarts : startsMessage buf pos = true) :
    pos = 0 ∨ bytes[pos - 1]? = some newline := by
  simp only [startsMessage, Bool.and_eq_true, Bool.or_eq_true, decide_eq_true_eq] at hstarts
  rcases hstarts.1.1.1 with hzero | hnewline
  · exact .inl hzero
  · right
    rw [List.getElem?_eq_getElem (by omega), ← h (pos - 1) (by omega), hnewline]

end Shown

namespace Response

variable {r : Response} {buf : Nat → UInt8}

theorem length_terminator (r : Response) : 4 ≤ r.terminator.length := by
  have hcode := r.terminator_line.2
  match hterminator : r.terminator with
  | [] | [_] | [_, _] | [_, _, _] => simp [hterminator, codeThen] at hcode
  | _ :: _ :: _ :: _ :: _ => simp

theorem length_bytes (r : Response) :
    r.bytes.length = r.body.length + r.terminator.length + 1 := by
  simp [bytes, Nat.add_assoc]

/-- Lines before the terminator line have no white space behind three digits. -/
theorem not_space (r : Response) {line : List UInt8}
    (hline : line ∈ r.data ++ r.context) (rest : List UInt8) :
    codeThen isspace (line ++ newline :: rest) = false := by
  rcases List.mem_append.mp hline with hdata | hcontext
  · have hcode := (r.data_line line hdata).2
    rw [codeThen_append]
    generalize line ++ [newline] = whole at hcode
    match whole with
    | [] | [_] | [_, _] | [_, _, _] => rfl
    | a :: b :: c :: d :: _ =>
        simp only [codeThen, Bool.and_eq_false_iff, Bool.or_eq_false_iff] at hcode ⊢
        rcases hcode with hdigits | ⟨-, hspace⟩
        · exact .inl hdigits
        · exact .inr hspace
  · refine codeThen_exclusive (r.context_line line hcontext).2 ?_ _
    intro c hc
    obtain rfl : c = 45 := by simpa using hc
    decide

theorem newline_not_mem (r : Response) {line : List UInt8}
    (hline : line ∈ r.data ++ r.context) : newline ∉ line := by
  rcases List.mem_append.mp hline with hdata | hcontext
  · exact (r.data_line line hdata).1
  · exact (r.context_line line hcontext).1

theorem body_end (r : Response) :
    r.body = [] ∨ ∃ lines, r.body = lines ++ [newline] := by
  unfold body
  generalize r.data ++ r.context = lines
  rcases List.eq_nil_or_concat lines with rfl | ⟨before, line, rfl⟩
  · exact .inl rfl
  · exact .inr ⟨before.flatMap (· ++ [newline]) ++ line, by simp⟩

theorem terminated (r : Response) (hshows : Shows buf r.bytes) :
    Terminated buf r.bytes.length r.body.length := by
  have hterminator := r.length_terminator
  have hlength := r.length_bytes
  have hlast : r.bytes.drop r.body.length = r.terminator ++ [newline] := by
    simp [bytes]
  have hcode : isdigit (buf r.body.length) = true ∧
      isdigit (buf (r.body.length + 1)) = true ∧
      isdigit (buf (r.body.length + 2)) = true ∧ buf (r.body.length + 3) = 32 := by
    have hcodes := hshows.codeThen (p := (· = 32)) (show r.body.length + 3 < _ by omega)
    rw [hlast, codeThen_append_left r.terminator_line.2] at hcodes
    simpa [and_assoc] using hcodes.symm
  obtain ⟨h0, h1, h2, h3⟩ := hcode
  refine ⟨by omega, ?_, by rw [h3]; decide, ?_, ?_⟩
  · simp only [startsMessage, h0, h1, h2, Bool.and_true, Bool.or_eq_true,
      decide_eq_true_eq]
    rcases r.body_end with hnil | ⟨lines, hlines⟩
    · exact .inl (by simp [hnil])
    · right
      rw [hshows _ (by omega)]
      simp [bytes, hlines]
  · intro pos hpos hstarts hspace
    have hstart := hshows.start (by omega) hstarts
    rcases line_of_start (fun line => r.newline_not_mem) r.terminator_line.1 (by exact Nat.lt_of_add_right_lt hpos) hstart
      with ⟨line, hline, rest, hdrop⟩ | hend
    · have hcodes := hshows.codeThen (p := isspace) hpos
      rw [show r.bytes.drop pos = line ++ newline :: rest from hdrop,
        r.not_space hline] at hcodes
      simp only [startsMessage, Bool.and_eq_true] at hstarts
      simp [hstarts.1.1.2, hstarts.1.2, hstarts.2, hspace] at hcodes
    · exact hend
  · intro k hk hlast'
    obtain ⟨j, rfl⟩ := Nat.exists_eq_add_of_lt hk
    have hbytes : (r.terminator ++ [newline])[j + 1]? =
        some (buf (r.body.length + j + 1)) := by
      rw [hshows _ hlast', ← hlast, List.getElem?_drop, ← Nat.add_assoc,
        List.getElem?_eq_getElem hlast']
    by_cases hj : j + 1 < r.terminator.length
    · rw [List.getElem?_append_left hj] at hbytes
      constructor
      · intro hnewline
        rw [hnewline] at hbytes
        exact absurd (List.mem_of_getElem? hbytes) r.terminator_line.1
      · omega
    · have hend : j + 1 = r.terminator.length := by omega
      rw [hend, List.getElem?_concat_length] at hbytes
      constructor
      · omega
      · intro _
        exact (Option.some.inj hbytes).symm

end Response

/-! ## Receiving in parts -/

namespace Task

/-- A task that was emptied and into which these bytes were read. -/
def received (t : Task) (bytes : List UInt8) : Task := { t.emptied with
  buf := Ring.store t.buf 0 bytes
  tail := BitVec.ofNat 32 bytes.length
  md5State := if t.type = .download then t.md5State ++ bytes else t.md5State }

variable {t : Task} {bytes chunk : List UInt8}

theorem received_nil (t : Task) : t.received [] = t.emptied := by
  simp [received, emptied, Ring.store_nil]

theorem received_tail (h : bytes.length ≤ taskbufsiz) :
    (t.received bytes).tail.toNat = bytes.length := by
  unfold taskbufsiz at h
  simp [received]
  omega

theorem received_tailpos (h : bytes.length < taskbufsiz) :
    (t.received bytes).tailpos = bytes.length := by
  unfold tailpos
  rw [received_tail h.le, Nat.mod_eq_of_lt h]

theorem received_readSize (h : bytes.length ≤ taskbufsiz) :
    (t.received bytes).readSize = taskbufsiz - bytes.length := by
  have htail : (t.received bytes).tailpos = bytes.length % taskbufsiz := by
    rw [tailpos, received_tail h]
  have hhead : (t.received bytes).headpos = 0 := rfl
  have hempty : (t.received bytes).head = (t.received bytes).tail ↔ bytes.length = 0 := by
    rw [← BitVec.toNat_inj, received_tail h]
    exact eq_comm
  simp only [readSize, hempty, hhead, htail]
  rcases h.eq_or_lt with hfull | hlt
  · rw [hfull]
    rfl
  · rw [Nat.mod_eq_of_lt hlt, if_pos (by omega)]

/-- As much of the chunk is read as there is room for. -/
theorem read_received_take (t : Task) (bytes : List UInt8) (hchunk : chunk ≠ [])
    (hroom : bytes.length < taskbufsiz) :
    readToTaskbuf (.moved chunk) (t.received bytes) =
      (.tbufOk, t.received ((bytes ++ chunk).take taskbufsiz)) := by
  have htail := received_tailpos (t := t) hroom
  have hsize := received_readSize (t := t) hroom.le
  have htake : (bytes ++ chunk).take taskbufsiz =
      bytes ++ chunk.take (taskbufsiz - bytes.length) := by
    rw [List.take_append, List.take_of_length_le hroom.le]
  rw [htake]
  have hpos := List.length_pos_iff.mpr hchunk
  have hne : (chunk.take (taskbufsiz - bytes.length)).length ≠ 0 := by
    rw [List.length_take]
    omega
  generalize hpart : chunk.take (taskbufsiz - bytes.length) = part at hne
  have hbuf : Ring.store (Ring.store t.buf 0 bytes) bytes.length part =
      Ring.store t.buf 0 (bytes ++ part) := by
    have happend := Ring.store_append t.buf 0 bytes part
    rwa [Nat.zero_add] at happend
  simp only [readToTaskbuf, hsize, hpart, htail, if_neg hne]
  simp only [received, emptied, hbuf, List.length_append, BitVec.ofNat_add]
  split <;> simp

/-- In a full buffer `read` finds the end. -/
theorem read_received_full (t : Task) (chunk : List UInt8) (hfull : bytes.length = taskbufsiz) :
    (readToTaskbuf (.moved chunk) (t.received bytes)).1 = .tbufEnd := by
  have hsize := received_readSize (t := t) hfull.le
  rw [hfull, Nat.sub_self] at hsize
  simp [readToTaskbuf, hsize]

theorem read_received (t : Task) (bytes : List UInt8) (hchunk : chunk ≠ [])
    (hfits : (bytes ++ chunk).length < taskbufsiz) :
    readToTaskbuf (.moved chunk) (t.received bytes) =
      (.tbufOk, t.received (bytes ++ chunk)) := by
  rw [read_received_take t bytes hchunk (by simp at hfits; omega),
    List.take_of_length_le hfits.le]

end Task

section Runs

variable {t : Task} {r : Response} {received : List UInt8}
  {chunks before after : List (List UInt8)} {pos : Nat} {splitPos : Option Nat}

theorem shows_store (cells : Nat → UInt8) (bytes : List UInt8) :
    Shows (Ring.store cells 0 bytes) bytes := by
  intro i hi
  have hcell : Ring.store cells 0 bytes (0 + i) = bytes[i] := Ring.store_of_mem hi
  rwa [Nat.zero_add] at hcell

/-- The scan of a first part is the scan of the response up to it. -/
theorem scan_received {rest : List UInt8} (hbytes : received ++ rest = r.bytes)
    (hfits : r.bytes.length < taskbufsiz) (pos : Nat) (splitPos : Option Nat) :
    scan (t.received received).buf (t.received received).tail.toNat
        ((t.received received).tail.toNat - 3 - pos) splitPos pos =
      scan (Ring.store t.buf 0 r.bytes) received.length
        (received.length - 3 - pos) splitPos pos := by
  have hlength := congrArg List.length hbytes
  rw [List.length_append] at hlength
  rw [Task.received_tail (by omega)]
  refine scan_congr (fun i hi => ?_) le_rfl
  rw [shows_store t.buf r.bytes i (by omega)]
  have hagree : r.bytes[i]? = received[i]? := by
    rw [← hbytes, List.getElem?_append_left hi]
  rw [List.getElem?_eq_getElem (by omega), List.getElem?_eq_getElem hi] at hagree
  rw [Option.some.inj hagree]
  exact shows_store t.buf received i hi

/-- One more read, after a scan of the first part of a response. -/
theorem readMore_cons {chunk : List UInt8} (hchunk : chunk ≠ [])
    (hbytes : received ++ chunk ++ chunks.flatten = r.bytes)
    (hfits : r.bytes.length < taskbufsiz) (pos : Nat) (splitPos : Option Nat) :
    ∃ splitPos' pos',
      readMore ((chunk :: chunks).map .moved) (t.received received) splitPos pos =
        readMore (chunks.map .moved) (t.received (received ++ chunk)) splitPos' pos' ∧
      (pos ≤ r.body.length → received.length < r.body.length + 5 →
        Split (Ring.store t.buf 0 r.bytes) pos splitPos → pos' ≤ r.body.length ∧
          Split (Ring.store t.buf 0 r.bytes) pos' splitPos') ∧
      (r.body.length < pos ∨ r.body.length + 5 ≤ received.length →
        r.body.length < pos') := by
  have hterminated := r.terminated (shows_store t.buf r.bytes)
  have hpos : 0 < chunk.length := List.length_pos_iff.mpr hchunk
  have hlength := congrArg List.length hbytes
  simp only [List.length_append] at hlength
  obtain ⟨splitPos', pos', hscan, hshort, hlong⟩ := scan_part hterminated pos splitPos
    (show received.length ≤ r.bytes.length by omega) (.inr (by omega))
  rw [← scan_received (by rw [← List.append_assoc, hbytes]) hfits] at hscan
  refine ⟨splitPos', pos', ?_, hshort, hlong⟩
  have hread := Task.read_received t received hchunk (by simp; omega)
  rw [List.map_cons, readMore, hscan]
  simp [hread]

/-- The terminator was passed, or is passed now: the call waits for more. -/
theorem readMore_passed (hchunks : ∀ chunk ∈ chunks, chunk ≠ [])
    (hbytes : received ++ chunks.flatten = r.bytes)
    (hfits : r.bytes.length < taskbufsiz)
    (hpassed : r.body.length < pos ∨
      r.body.length + 5 ≤ received.length ∧ chunks ≠ []) :
    ∃ t', readMore (chunks.map .moved) (t.received received) splitPos pos =
      .waiting t' := by
  induction chunks generalizing received pos splitPos with
  | nil =>
      have hterminated := r.terminated (shows_store t.buf r.bytes)
      have hall : received = r.bytes := by simpa using hbytes
      obtain ⟨splitPos', pos', hscan, -⟩ := scan_part hterminated pos splitPos
        (show received.length ≤ r.bytes.length by simp [hall]) (.inl (by simpa using hpassed))
      rw [← scan_received hbytes hfits] at hscan
      exact ⟨t.received received, by rw [List.map_nil, readMore, hscan]⟩
  | cons chunk chunks ih =>
      have hbytes' : received ++ chunk ++ chunks.flatten = r.bytes := by
        simpa [List.append_assoc] using hbytes
      obtain ⟨splitPos', pos', hmore, -, hlong⟩ := readMore_cons (t := t)
        (hchunks chunk (by simp)) hbytes' hfits pos splitPos
      rw [hmore]
      exact ih (fun c hc => hchunks c (by simp [hc])) hbytes'
        (.inl (hlong (hpassed.imp_right And.left)))

/-- A part of the response ends inside the terminator line, behind its code. -/
theorem readMore_waits (hbefore : ∀ chunk ∈ before ++ after, chunk ≠ [])
    (hafter : after ≠ [])
    (hbytes : received ++ (before ++ after).flatten = r.bytes)
    (hfits : r.bytes.length < taskbufsiz)
    (hlong : r.body.length + 5 ≤ (received ++ before.flatten).length) :
    ∃ t', readMore ((before ++ after).map .moved) (t.received received) splitPos pos =
      .waiting t' := by
  induction before generalizing received pos splitPos with
  | nil =>
      exact readMore_passed hbefore hbytes hfits (.inr ⟨by simpa using hlong, hafter⟩)
  | cons chunk before ih =>
      have hbytes' : received ++ chunk ++ (before ++ after).flatten = r.bytes := by
        simpa [List.append_assoc] using hbytes
      obtain ⟨splitPos', pos', hmore, -⟩ := readMore_cons (t := t)
        (hbefore chunk (by simp)) hbytes' hfits pos splitPos
      rw [List.cons_append, hmore]
      exact ih (fun c hc => hbefore c (by simp at hc ⊢; tauto)) hbytes'
        (by simpa [List.append_assoc] using hlong)

/-- The task when the whole response was read and a NUL put behind it. -/
def Task.answered (t : Task) (r : Response) : Task := { t.received r.bytes with
  buf := Function.update (t.received r.bytes).buf r.bytes.length 0 }

/-- No part of the response ends inside the terminator line behind its code. -/
theorem readMore_returns (hchunks : ∀ chunk ∈ chunks, chunk ≠ [])
    (hbytes : received ++ chunks.flatten = r.bytes)
    (hfits : r.bytes.length < taskbufsiz)
    (hshort : ∀ before after, chunks = before ++ after → after ≠ [] →
      (received ++ before.flatten).length < r.body.length + 5)
    (hpos : pos ≤ r.body.length)
    (hsplit : Split (Ring.store t.buf 0 r.bytes) pos splitPos) :
    ∃ first, firstMessage (Ring.store t.buf 0 r.bytes) (r.body.length + 1) = some first ∧
      readMore (chunks.map .moved) (t.received received) splitPos pos =
        .returned first (t.answered r) [] := by
  induction chunks generalizing received pos splitPos with
  | nil =>
      have hterminated := r.terminated (shows_store t.buf r.bytes)
      have hall : received = r.bytes := by simpa using hbytes
      obtain ⟨first, hfirst, hscan⟩ := scan_whole hterminated hpos hsplit
      subst hall
      rw [← scan_received hbytes hfits] at hscan
      refine ⟨first, hfirst, ?_⟩
      rw [List.map_nil, readMore, hscan]
      simp only [Task.received_tail hfits.le]
      rfl
  | cons chunk chunks ih =>
      have hbytes' : received ++ chunk ++ chunks.flatten = r.bytes := by
        simpa [List.append_assoc] using hbytes
      obtain ⟨splitPos', pos', hmore, hstays, -⟩ := readMore_cons (t := t)
        (hchunks chunk (by simp)) hbytes' hfits pos splitPos
      have hnow : received.length < r.body.length + 5 := by
        simpa using hshort [] (chunk :: chunks) rfl (by simp)
      obtain ⟨hpos', hsplit'⟩ := hstays hpos hnow hsplit
      rw [hmore]
      refine ih (fun c hc => hchunks c (by simp [hc])) hbytes' ?_ hpos' hsplit'
      intro before after hparts hafter
      have hlater := hshort (chunk :: before) after (by simp [hparts]) hafter
      simpa [List.append_assoc] using hlater

end Runs

/-! ## Segmentation -/

/-- The call returns when the last part was read, as it does on one read. -/
def SameAsOneRead (t : Task) (bytes : List UInt8) (chunks : List (List UInt8)) : Prop :=
  ∃ splitPos t',
    readTrackerResponse (chunks.map .moved) t = .returned splitPos t' [] ∧
      readTrackerResponse [.moved bytes] t = .returned splitPos t' []

theorem readTrackerResponse_returns (t : Task) (r : Response)
    (hfits : r.bytes.length < taskbufsiz) (chunks : List (List UInt8))
    (hchunks : ∀ chunk ∈ chunks, chunk ≠ []) (hbytes : chunks.flatten = r.bytes)
    (hshort : ∀ before after, chunks = before ++ after → after ≠ [] →
      before.flatten.length < r.body.length + 5) :
    ∃ first, firstMessage (Ring.store t.buf 0 r.bytes) (r.body.length + 1) = some first ∧
      readTrackerResponse (chunks.map .moved) t = .returned first (t.answered r) [] := by
  rw [readTrackerResponse, ← Task.received_nil]
  exact readMore_returns hchunks hbytes hfits hshort (Nat.zero_le _) (.inl rfl)

theorem readTrackerResponse_waits (t : Task) (r : Response)
    (hfits : r.bytes.length < taskbufsiz) (before after : List (List UInt8))
    (hchunks : ∀ chunk ∈ before ++ after, chunk ≠ []) (hafter : after ≠ [])
    (hbytes : (before ++ after).flatten = r.bytes)
    (hlong : r.body.length + 5 ≤ before.flatten.length) :
    ∃ t', readTrackerResponse ((before ++ after).map .moved) t = .waiting t' := by
  rw [readTrackerResponse, ← Task.received_nil]
  exact readMore_waits hchunks hafter hbytes hfits hlong

theorem sameAsOneRead_iff (t : Task) (r : Response)
    (hfits : r.bytes.length < taskbufsiz) (chunks : List (List UInt8))
    (hchunks : ∀ chunk ∈ chunks, chunk ≠ []) (hbytes : chunks.flatten = r.bytes) :
    SameAsOneRead t r.bytes chunks ↔
      ∀ before after, chunks = before ++ after → after ≠ [] →
        before.flatten.length < r.body.length + 5 := by
  constructor
  · rintro ⟨splitPos, t', hreturns, -⟩ before after rfl hafter
    by_contra hlong
    obtain ⟨t'', hwaits⟩ := readTrackerResponse_waits t r hfits before after hchunks
      hafter hbytes (by omega)
    rw [hwaits] at hreturns
    cases hreturns
  · intro hshort
    obtain ⟨first, hfirst, hparts⟩ :=
      readTrackerResponse_returns t r hfits chunks hchunks hbytes hshort
    obtain ⟨first', hfirst', hone⟩ :=
      readTrackerResponse_returns t r hfits [r.bytes] (by simp [Response.bytes])
        (by simp) (by
          intro before after hsplit hafter
          rcases before with _ | ⟨chunk, before⟩
          · simp
          · simp_all)
    obtain rfl := Option.some.inj (hfirst.symm.trans hfirst')
    exact ⟨first, t.answered r, hparts, hone⟩

/-- `200 ok` -/
def okResponse : Response where
  data := []
  context := []
  terminator := [50, 48, 48, 32, 111, 107]
  data_line := by simp
  context_line := by simp
  terminator_line := by decide

def okParts : List (List UInt8) := [[50, 48], [48, 32], [111, 107, 10]]

theorem sameAsOneRead_iff_okResponse :
    SameAsOneRead (taskNew .tracker fun _ => 0) okResponse.bytes okParts ↔
      ∀ before after, okParts = before ++ after → after ≠ [] →
        before.flatten.length < okResponse.body.length + 5 :=
  sameAsOneRead_iff _ okResponse (by decide) okParts (by decide) (by decide)

/-- The terminator line is cut behind its first letter. -/
theorem cutTerminator_not_sameAsOneRead :
    ¬ ∀ (t : Task) (r : Response), r.bytes.length < taskbufsiz →
      ∀ chunks : List (List UInt8), (∀ chunk ∈ chunks, chunk ≠ []) →
        chunks.flatten = r.bytes → SameAsOneRead t r.bytes chunks := by
  intro hall
  obtain ⟨splitPos, t', hreturns, -⟩ := hall (taskNew .tracker fun _ => 0) okResponse
    (by decide) [[50, 48, 48, 32, 111], [107, 10]] (by decide) (by decide)
  cases hreturns

end Cs111Labs.Peer
