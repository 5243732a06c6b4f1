import Cs111Labs.Shell.ReadCommands

/-!
# The word buffer

`update_char` enlarges the buffer while a second pointer walks through it, and
it is given that pointer by value.  So the pointer of its caller goes on into
the old block, which is live only if `realloc` did not move it.
-/

namespace Cs111Labs.Shell

/-- How the loop over the bytes can end early. -/
inductive Stop where
  | error (text : String)
  | undefined
  deriving DecidableEq, Repr

/-- A pointer, by the block that it was taken from. -/
structure CharPointer where
  block : Nat
  offset : Nat
  deriving DecidableEq, Repr

/-- `word_buffer`, `word_buffer_size` and `word_buffer_ptr` -/
structure WordBuffer where
  address : Nat
  size : Nat
  -- `none` for a byte that was never written
  chars : Nat → Option UInt8
  ptr : CharPointer

/--
The test `temp >= lim * *buffer_size`.  The product is a `float`; whatever its
rounding, the test holds at the last byte of the buffer.
-/
structure SizeLimit where
  reached : Nat → Nat → Bool
  reached_last : ∀ size, 100 ≤ size → reached (size - 1) size = true

/-- `buffer_size_lim = 0.8` without rounding -/
def fourFifths : SizeLimit where
  reached temp size := 4 * size ≤ 5 * temp
  reached_last size hsize := by
    simp only [decide_eq_true_eq]
    omega

/-- `*word_buffer_ptr = byte` -/
def WordBuffer.store (byte : UInt8) (w : WordBuffer) : Except Stop WordBuffer :=
  if w.ptr.block = w.address ∧ w.ptr.offset < w.size then
    .ok { w with chars := Function.update w.chars w.ptr.offset (some byte) }
  else .error .undefined

/-- The variables of the first loop, with the buffer as it lies in memory. -/
structure Buffered where
  isComments : Bool := false
  buffer : WordBuffer
  cells : List Token := []

/-- `checked_malloc` returned `address`. -/
def startBuffered (address : Nat) : Buffered where
  buffer := ⟨address, 100, Function.update (fun _ => none) 0 (some 0), ⟨address, 0⟩⟩

/-- The characters from index `i` up to the NUL, in a block of `n` more bytes. -/
def readString (chars : Nat → Option UInt8) : Nat → Nat → Option CString
  | 0, _ => none
  | n + 1, i =>
      match chars i with
      | none => none
      | some c => if c = 0 then some [] else (readString chars n (i + 1)).map (c :: ·)

/-- The call of `add_token` with `WORD_TOKEN` -/
def addPending (s : Buffered) : Except Stop Buffered :=
  match readString s.buffer.chars s.buffer.size 0 with
  | none => .error .undefined
  | some word =>
      if word = [] then .ok s
      else .ok { s with
        buffer := { s.buffer with
          chars := Function.update s.buffer.chars 0 (some 0)
          ptr := ⟨s.buffer.address, 0⟩ }
        cells := addWord word s.cells }

section Loop

/-! The address of the block of the given size that `realloc` returns, if there
is memory: the buffer never has the same size twice. -/
variable (limit : SizeLimit) (realloc : Nat → Option Nat)

/-- The new `ptr` is not given back to the caller. -/
def updateChar (w : WordBuffer) : Except Stop WordBuffer :=
  if limit.reached w.ptr.offset w.size then
    if w.size + 100 < 2 ^ 31 then
      match realloc (w.size + 100) with
      | none => .error (.error "memory exhausted")
      | some address =>
          .ok { w with
            address := address
            size := w.size + 100
            chars := fun i => if i < w.size then w.chars i else none }
    else .error .undefined
  else .ok w

def storeChar (nextByte : UInt8) (w : WordBuffer) : Except Stop WordBuffer := do
  let w ← w.store nextByte
  let w ← updateChar limit realloc w
  { w with ptr := { w.ptr with offset := w.ptr.offset + 1 } }.store 0

def bufferedByte (nextByte : UInt8) (s : Buffered) : Except Stop Buffered :=
  let s := { s with isComments := ignoreComments nextByte s.isComments }
  if s.isComments then .ok s
  else if isValidChar nextByte then
    if isWordContent nextByte then
      (storeChar limit realloc nextByte s.buffer).map fun buffer => { s with buffer := buffer }
    else
      (addPending s).bind fun s =>
        match specialToken nextByte with
        | none => .ok s
        | some tType =>
            match addToken tType s.cells with
            | .error text => .error (.error text)
            | .ok cells => .ok { s with cells := cells }
  else .error (.error "unsupported character!")

def bufferedBytes : List UInt8 → Buffered → Except Stop Buffered
  | [], s => .ok s
  | nextByte :: bytes, s =>
      if nextByte = 255 then .ok s
      else bufferedByte limit realloc nextByte s >>= bufferedBytes bytes

/-- The sizes that the buffer is given while `count` characters are stored, the
first of them at index `temp`. -/
def enlargements (size temp : Nat) : Nat → List Nat
  | 0 => []
  | count + 1 =>
      if limit.reached temp size then
        (size + 100) :: enlargements (size + 100) (temp + 1) count
      else enlargements size (temp + 1) count

/-- No enlargement for `count` more characters moves the buffer. -/
def StaysInPlace (w : WordBuffer) (count : Nat) : Prop :=
  ∀ size ∈ enlargements limit w.size w.ptr.offset count,
    size < 2 ^ 31 ∧ realloc size = some w.address

/-- Reading the word and adding it gives a cell with exactly its characters. -/
def Survives (word : List UInt8) (s : Buffered) : Prop :=
  ∃ s' s'', bufferedBytes limit realloc word s = .ok s' ∧ addPending s' = .ok s'' ∧
    s''.cells.head? = some ⟨.word, some word⟩

end Loop

/-! ## The characters of the pending word -/

/-- The live block holds the pending word, and the pointer stands behind it. -/
structure Holds (w : WordBuffer) (word : CString) : Prop where
  ptr : w.ptr = ⟨w.address, word.length⟩
  size : 100 ≤ w.size
  room : word.length < w.size
  chars : ∀ i c, word[i]? = some c → w.chars i = some c
  ending : w.chars word.length = some 0
  nonzero : ∀ c ∈ word, c ≠ 0

theorem readString_eq {chars : Nat → Option UInt8} (word : CString) (start n : Nat)
    (hchars : ∀ i c, word[i]? = some c → chars (start + i) = some c)
    (hending : chars (start + word.length) = some 0) (hnonzero : ∀ c ∈ word, c ≠ 0)
    (hroom : word.length < n) : readString chars n start = some word := by
  induction word generalizing start n with
  | nil =>
      obtain ⟨n, rfl⟩ : ∃ m, n = m + 1 := ⟨n - 1, by simp at hroom; omega⟩
      have hzero : chars start = some 0 := by simpa using hending
      simp [readString, hzero]
  | cons c word ih =>
      obtain ⟨n, rfl⟩ : ∃ m, n = m + 1 := ⟨n - 1, by omega⟩
      have hfirst : chars start = some c := by simpa using hchars 0 c rfl
      have hrest : readString chars n (start + 1) = some word := by
        refine ih (start + 1) n ?_ ?_ ?_ (by simpa using hroom)
        · intro i d hd
          rw [Nat.add_right_comm]
          exact hchars (i + 1) d hd
        · rw [Nat.add_right_comm]
          exact hending
        · exact fun d hd => hnonzero d (List.mem_cons_of_mem c hd)
      simp [readString, hfirst, hrest, hnonzero c List.mem_cons_self]

theorem Holds.readString_eq {w : WordBuffer} {word : CString} (h : Holds w word) :
    readString w.chars w.size 0 = some word :=
  Shell.readString_eq word 0 w.size (fun i c hc => by simpa using h.chars i c hc)
    (by simpa using h.ending) h.nonzero h.room

/-- The word is taken as it is, and nothing is pending. -/
theorem Holds.addPending {s : Buffered} {word : CString} (h : Holds s.buffer word) :
    ∃ s', addPending s = .ok s' ∧ s'.isComments = s.isComments ∧
      s'.cells = addWord word s.cells ∧ Holds s'.buffer [] := by
  unfold Shell.addPending
  rw [h.readString_eq]
  by_cases hempty : word = []
  · subst hempty
    exact ⟨s, by simp, rfl, by simp [addWord], h⟩
  · refine ⟨_, if_neg hempty, rfl, rfl, ?_⟩
    exact {
      ptr := rfl
      size := h.size
      room := Nat.lt_of_le_of_lt (Nat.zero_le _) h.room
      chars := by simp
      ending := by simp
      nonzero := by simp }

theorem startBuffered_holds (address : Nat) : Holds (startBuffered address).buffer [] where
  ptr := rfl
  size := Nat.le_refl 100
  room := by simp [startBuffered]
  chars := by simp
  ending := by simp [startBuffered]
  nonzero := by simp

section Loop

variable {limit : SizeLimit} {realloc : Nat → Option Nat}
variable {w w' : WordBuffer} {word : CString}

theorem Holds.store_zero (hptr : w.ptr = ⟨w.address, word.length⟩) (hsize : 100 ≤ w.size)
    (hroom : word.length < w.size) (hchars : ∀ i c, word[i]? = some c → w.chars i = some c)
    (hnonzero : ∀ c ∈ word, c ≠ 0) : ∃ w', w.store 0 = .ok w' ∧ Holds w' word ∧
      w'.address = w.address ∧ w'.size = w.size := by
  have hlive : w.ptr.block = w.address ∧ w.ptr.offset < w.size := by
    rw [hptr]
    exact ⟨rfl, hroom⟩
  refine ⟨_, if_pos hlive, ?_, rfl, rfl⟩
  exact {
    ptr := hptr
    size := hsize
    room := hroom
    chars := by
      intro i c hc
      obtain ⟨hlt, -⟩ := List.getElem?_eq_some_iff.mp hc
      have hne : i ≠ w.ptr.offset := by
        rw [hptr]
        exact Nat.ne_of_lt hlt
      simpa [Function.update_of_ne hne] using hchars i c hc
    ending := by simp [hptr]
    nonzero := hnonzero }

/-- The size of the buffer after `update_char` -/
def sizeAfter (limit : SizeLimit) (w : WordBuffer) : Nat :=
  if limit.reached w.ptr.offset w.size then w.size + 100 else w.size

/-- The next character does not move the buffer. -/
def Unmoved (limit : SizeLimit) (realloc : Nat → Option Nat) (w : WordBuffer) : Prop :=
  limit.reached w.ptr.offset w.size = true →
    w.size + 100 < 2 ^ 31 ∧ realloc (w.size + 100) = some w.address

theorem Holds.store (h : Holds w word) (byte : UInt8) : w.store byte = .ok { w with
    chars := Function.update w.chars word.length (some byte) } := by
  have hlive : w.ptr.block = w.address ∧ w.ptr.offset < w.size := by
    rw [h.ptr]
    exact ⟨rfl, h.room⟩
  rw [WordBuffer.store, if_pos hlive, h.ptr]

/-- With the character at the end of the word, only the NUL is missing. -/
theorem Holds.chars_update (h : Holds w word) (byte : UInt8) (i : Nat) (c : UInt8)
    (hc : (word ++ [byte])[i]? = some c) :
    Function.update w.chars word.length (some byte) i = some c := by
  rcases Nat.lt_trichotomy i word.length with hlt | rfl | hgt
  · rw [Function.update_of_ne (Nat.ne_of_lt hlt)]
    exact h.chars i c (by rwa [List.getElem?_append_left hlt] at hc)
  · simpa using hc
  · rw [List.getElem?_eq_none (by simpa using hgt)] at hc
    cases hc

theorem Holds.storeChar (h : Holds w word) {byte : UInt8} (hbyte : byte ≠ 0)
    (hunmoved : Unmoved limit realloc w) :
    ∃ w', storeChar limit realloc byte w = .ok w' ∧ Holds w' (word ++ [byte]) ∧
      w'.address = w.address ∧ w'.size = sizeAfter limit w := by
  have hnonzero : ∀ c ∈ word ++ [byte], c ≠ 0 :=
    List.forall_mem_append.mpr ⟨h.nonzero, by simpa using hbyte⟩
  have hoffset : w.ptr.offset = word.length := by rw [h.ptr]
  unfold Shell.storeChar
  rw [h.store]
  simp only [bind, Except.bind, updateChar]
  by_cases hreached : limit.reached w.ptr.offset w.size = true
  · obtain ⟨hint, hrealloc⟩ := hunmoved hreached
    rw [if_pos hreached, if_pos hint, hrealloc]
    have hsize : sizeAfter limit w = w.size + 100 := if_pos hreached
    rw [hsize]
    refine Holds.store_zero (by simp [h.ptr]) ?_ ?_ ?_ hnonzero
    · exact Nat.le_trans h.size (Nat.le_add_right ..)
    · have hroom := h.room
      simp only [List.length_append, List.length_singleton]
      omega
    · intro i c hc
      obtain ⟨hlt, -⟩ := List.getElem?_eq_some_iff.mp hc
      have hold : i < w.size := by
        have hroom := h.room
        simp only [List.length_append, List.length_singleton] at hlt
        omega
      exact (if_pos hold).trans (h.chars_update byte i c hc)
  · rw [if_neg hreached]
    have hsize : sizeAfter limit w = w.size := if_neg hreached
    rw [hsize]
    refine Holds.store_zero (by simp [h.ptr]) h.size ?_ ?_ hnonzero
    · -- The limit is reached at the last byte.
      have hroom := h.room
      have hlast : word.length ≠ w.size - 1 := fun heq =>
        hreached (by rw [hoffset, heq]; exact limit.reached_last w.size h.size)
      simp only [List.length_append, List.length_singleton]
      omega
    · exact fun i c hc => h.chars_update byte i c hc

/-- The NUL is stored into the old block. -/
theorem Holds.unmoved (h : Holds w word) {byte : UInt8}
    (hstore : Shell.storeChar limit realloc byte w = .ok w') : Unmoved limit realloc w := by
  intro hreached
  unfold Shell.storeChar at hstore
  rw [h.store] at hstore
  simp only [bind, Except.bind, updateChar] at hstore
  rw [if_pos hreached] at hstore
  split at hstore
  · cases hstore
  · rename_i moved hmoved
    split at hmoved
    · rename_i hint
      refine ⟨hint, ?_⟩
      cases hrealloc : realloc (w.size + 100) with
      | none => simp [hrealloc] at hmoved
      | some address =>
          rw [hrealloc] at hmoved
          obtain rfl := Except.ok.inj hmoved
          rw [WordBuffer.store] at hstore
          split at hstore
          · rename_i hlive
            have hblock : w.ptr.block = w.address := by rw [h.ptr]
            rw [← hblock, hlive.1]
          · cases hstore
    · cases hmoved

/-! ## The bytes of one word -/

theorem ne_zero_of_isWordContent {byte : UInt8} (h : isWordContent byte = true) :
    byte ≠ 0 := by
  rintro rfl
  exact absurd h (by decide)

theorem bufferedByte_word {byte : UInt8} {s : Buffered} (hbyte : isWordContent byte = true)
    (hoff : s.isComments = false) :
    bufferedByte limit realloc byte s =
      (storeChar limit realloc byte s.buffer).map fun buffer => { s with buffer := buffer } := by
  have hhash : byte ≠ 35 := by
    rintro rfl
    exact absurd hbyte (by decide)
  have hignore : ignoreComments byte s.isComments = false := by
    simp [ignoreComments, hhash, hoff]
  have hvalid : isValidChar byte = true := by simp [isValidChar, hbyte]
  obtain ⟨isComments, buffer, cells⟩ := s
  obtain rfl : isComments = false := hoff
  simp [bufferedByte, hignore, hvalid, hbyte]

theorem staysInPlace_succ (h : w.ptr.offset + 1 = w'.ptr.offset)
    (haddress : w'.address = w.address) (hsize : w'.size = sizeAfter limit w) (count : Nat) :
    StaysInPlace limit realloc w (count + 1) ↔
      Unmoved limit realloc w ∧ StaysInPlace limit realloc w' count := by
  unfold StaysInPlace Unmoved
  rw [enlargements, ← h, haddress, hsize, sizeAfter]
  by_cases hreached : limit.reached w.ptr.offset w.size = true
  · simp [hreached]
  · simp [hreached]

theorem exists_bufferedBytes_iff {bytes : List UInt8} {s : Buffered}
    (h : Holds s.buffer word) (hoff : s.isComments = false)
    (hbytes : ∀ byte ∈ bytes, isWordContent byte = true) :
    (∃ s', bufferedBytes limit realloc bytes s = .ok s') ↔
      StaysInPlace limit realloc s.buffer bytes.length := by
  induction bytes generalizing s word with
  | nil => exact iff_of_true ⟨s, rfl⟩ (by simp [StaysInPlace, enlargements])
  | cons byte bytes ih =>
      obtain ⟨hbyte, hbytes⟩ := List.forall_mem_cons.mp hbytes
      have hend : byte ≠ 255 := by
        rintro rfl
        exact absurd hbyte (by decide)
      rw [bufferedBytes, if_neg hend, bufferedByte_word hbyte hoff, List.length_cons]
      by_cases hunmoved : Unmoved limit realloc s.buffer
      · obtain ⟨w', hstore, hholds, haddress, hsize⟩ :=
          h.storeChar (ne_zero_of_isWordContent hbyte) hunmoved
        have hnext : s.buffer.ptr.offset + 1 = w'.ptr.offset := by
          rw [h.ptr, hholds.ptr, List.length_append, List.length_singleton]
        rw [staysInPlace_succ hnext haddress hsize, hstore]
        have hrest := ih (s := { s with buffer := w' }) hholds hoff hbytes
        rw [← hrest]
        exact ⟨fun hrun => ⟨hunmoved, hrun⟩, fun hrun => hrun.2⟩
      · refine iff_of_false ?_ ?_
        · rintro ⟨s', hrun⟩
          cases hstore : storeChar limit realloc byte s.buffer with
          | error stop => simp [hstore, Except.map, bind, Except.bind] at hrun
          | ok w' => exact hunmoved (h.unmoved hstore)
        · intro hstays
          refine hunmoved fun hreached => hstays _ ?_
          simp [enlargements, hreached]

/-! ## What the loop does unless it ends early -/

/-- The reader with the word itself in place of the buffer -/
structure Follows (s : Buffered) (r : Reader) : Prop where
  isComments : s.isComments = r.isComments
  cells : s.cells = r.cells
  pending : Holds s.buffer r.wordBuffer

theorem Follows.bufferedByte {s s' : Buffered} {r : Reader} (h : Follows s r)
    {byte : UInt8} (hread : bufferedByte limit realloc byte s = .ok s') :
    ∃ r', readByte byte r = .ok r' ∧ Follows s' r' := by
  obtain ⟨isComments, buffer, cells⟩ := s
  obtain ⟨_, wordBuffer, _⟩ := r
  obtain ⟨rfl, rfl, hpending⟩ := h
  unfold Shell.bufferedByte at hread
  unfold readByte
  dsimp only at hread ⊢
  by_cases hcomment : ignoreComments byte isComments = true
  · rw [if_pos hcomment] at hread ⊢
    obtain rfl := Except.ok.inj hread
    exact ⟨_, rfl, rfl, rfl, hpending⟩
  · rw [if_neg hcomment] at hread ⊢
    by_cases hvalid : isValidChar byte = true
    · rw [if_pos hvalid] at hread ⊢
      by_cases hword : isWordContent byte = true
      · rw [if_pos hword] at hread ⊢
        cases hstore : storeChar limit realloc byte buffer with
        | error stop => simp [hstore, Except.map] at hread
        | ok w' =>
            obtain ⟨w'', hstore', hholds, -, -⟩ := hpending.storeChar
              (ne_zero_of_isWordContent hword) (hpending.unmoved hstore)
            obtain rfl := Except.ok.inj (hstore.symm.trans hstore')
            rw [hstore] at hread
            obtain rfl := Except.ok.inj hread
            exact ⟨_, rfl, rfl, rfl, hholds⟩
      · rw [if_neg hword] at hread ⊢
        obtain ⟨next, hadd, hcomments, hcells, hholds⟩ :=
          Holds.addPending (s := ⟨ignoreComments byte isComments, buffer, cells⟩) hpending
        obtain ⟨nextComments, nextBuffer, nextCells⟩ := next
        dsimp only at hcomments hcells hholds
        subst hcomments hcells
        rw [hadd] at hread
        dsimp only [Except.bind] at hread
        cases hspecial : specialToken byte with
        | none =>
            rw [hspecial] at hread
            obtain rfl := Except.ok.inj hread
            exact ⟨_, rfl, rfl, rfl, hholds⟩
        | some tType =>
            rw [hspecial] at hread
            cases htoken : addToken tType (addWord wordBuffer cells) with
            | error text => simp [htoken] at hread
            | ok cells' =>
                simp only [htoken] at hread
                obtain rfl := Except.ok.inj hread
                exact ⟨⟨ignoreComments byte isComments, [], cells'⟩,
                  by simp [htoken, Except.map], rfl, rfl, hholds⟩
    · rw [if_neg hvalid] at hread
      cases hread

theorem Follows.bufferedBytes {s s' : Buffered} {r : Reader} (h : Follows s r)
    {bytes : List UInt8} (hread : bufferedBytes limit realloc bytes s = .ok s') :
    ∃ r', readBytes bytes r = .ok r' ∧ Follows s' r' := by
  induction bytes generalizing s r with
  | nil => exact ⟨r, rfl, Except.ok.inj hread ▸ h⟩
  | cons byte bytes ih =>
      rw [Shell.bufferedBytes] at hread
      rw [readBytes]
      split at hread
      · rename_i hend
        rw [if_pos hend]
        exact ⟨r, rfl, Except.ok.inj hread ▸ h⟩
      · rename_i hend
        rw [if_neg hend]
        cases hbyte : Shell.bufferedByte limit realloc byte s with
        | error stop => simp [hbyte, bind, Except.bind] at hread
        | ok next =>
            rw [hbyte] at hread
            obtain ⟨r', hr, hnext⟩ := h.bufferedByte hbyte
            rw [hr]
            exact ih hnext hread

theorem readBytes_word {bytes : List UInt8} {r : Reader}
    (hbytes : ∀ byte ∈ bytes, isWordContent byte = true) (hoff : r.isComments = false) :
    readBytes bytes r = .ok { r with wordBuffer := r.wordBuffer ++ bytes } := by
  induction bytes generalizing r with
  | nil => simp [readBytes]
  | cons byte bytes ih =>
      obtain ⟨hbyte, hbytes⟩ := List.forall_mem_cons.mp hbytes
      have hend : byte ≠ 255 := by
        rintro rfl
        exact absurd hbyte (by decide)
      have hrest := ih (r := { r with wordBuffer := r.wordBuffer ++ [byte] }) hbytes hoff
      rw [readBytes, if_neg hend, readByte_word hbyte hoff]
      simpa [bind, Except.bind] using hrest

/-! ## The cell of a word -/

theorem Holds.survives_iff {s : Buffered} (h : Holds s.buffer [])
    (hoff : s.isComments = false) (hbytes : ∀ byte ∈ word, isWordContent byte = true)
    (hne : word ≠ []) :
    Survives limit realloc word s ↔ StaysInPlace limit realloc s.buffer word.length := by
  rw [← exists_bufferedBytes_iff h hoff hbytes]
  constructor
  · rintro ⟨s', -, hread, -, -⟩
    exact ⟨s', hread⟩
  · rintro ⟨s', hread⟩
    have hstart : Follows s ⟨false, [], s.cells⟩ := ⟨hoff, rfl, h⟩
    obtain ⟨r', hr, hfollows⟩ := hstart.bufferedBytes hread
    rw [readBytes_word hbytes rfl] at hr
    obtain rfl := Except.ok.inj hr
    obtain ⟨s'', hadd, -, hcells, -⟩ := hfollows.pending.addPending
    refine ⟨s', s'', hread, hadd, ?_⟩
    rw [hcells, List.nil_append, addWord, if_neg hne]
    split
    · rfl
    · rfl

/-- A word that starts anywhere in a script. -/
theorem survives_iff_staysInPlace (limit : SizeLimit) (realloc : Nat → Option Nat)
    (address : Nat) (before word : List UInt8) (s : Buffered)
    (hread : bufferedBytes limit realloc before (startBuffered address) = .ok s)
    (hoff : s.isComments = false) (hstart : s.buffer.ptr.offset = 0)
    (hbytes : ∀ byte ∈ word, isWordContent byte = true) (hne : word ≠ []) :
    Survives limit realloc word s ↔ StaysInPlace limit realloc s.buffer word.length := by
  have hfirst : Follows (startBuffered address) {} :=
    ⟨rfl, rfl, startBuffered_holds address⟩
  obtain ⟨r, -, hfollows⟩ := hfirst.bufferedBytes hread
  have hempty : r.wordBuffer = [] := by
    rw [hfollows.pending.ptr] at hstart
    exact List.eq_nil_of_length_eq_zero hstart
  have hpending := hfollows.pending
  rw [hempty] at hpending
  exact hpending.survives_iff hoff hbytes hne

end Loop

/-- A word of 81 characters, for which `realloc` extends the block. -/
theorem survives_iff_staysInPlace_extended :
    Survives fourFifths (fun _ => some 1000) (List.replicate 81 97) (startBuffered 1000) ↔
      StaysInPlace fourFifths (fun _ => some 1000) (startBuffered 1000).buffer
        (List.replicate 81 (97 : UInt8)).length :=
  survives_iff_staysInPlace fourFifths (fun _ => some 1000) 1000 [] (List.replicate 81 97)
    (startBuffered 1000) rfl rfl rfl (fun byte hbyte => by
      obtain rfl := List.eq_of_mem_replicate hbyte
      rfl) (by simp)

/-- The first enlargement -/
theorem mem_enlargements : 200 ∈ enlargements fourFifths 100 0 81 := by
  decide

/-- The same word, and `realloc` moves the block. -/
theorem movedBuffer_not_survives :
    ¬ ∀ (limit : SizeLimit) (realloc : Nat → Option Nat) (address : Nat)
      (before word : List UInt8) (s : Buffered),
      bufferedBytes limit realloc before (startBuffered address) = .ok s →
      s.isComments = false → s.buffer.ptr.offset = 0 →
      (∀ byte ∈ word, isWordContent byte = true) → word ≠ [] →
        Survives limit realloc word s := by
  intro hall
  have hbytes : ∀ byte ∈ List.replicate 81 (97 : UInt8), isWordContent byte = true := by
    intro byte hbyte
    obtain rfl := List.eq_of_mem_replicate hbyte
    rfl
  have hsurvives := hall fourFifths (fun _ => some 2000) 1000 [] (List.replicate 81 97)
    (startBuffered 1000) rfl rfl rfl hbytes (by simp)
  have hstays := ((startBuffered_holds 1000).survives_iff rfl hbytes (by simp)).mp hsurvives
  have hmoved := (hstays 200 (by simpa [startBuffered] using mem_enlargements)).2
  simp [startBuffered] at hmoved

end Cs111Labs.Shell
