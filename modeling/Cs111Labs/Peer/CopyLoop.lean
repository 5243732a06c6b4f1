import Cs111Labs.Peer.TaskBuffer

/-!
# Copying through the task buffer

Any sequence of reads and writes passes on the bytes in order.  The copy loops
of `task_upload` and `task_download` stop with `endOfFile` only when the source
has ended and everything was written.
-/

namespace Cs111Labs.Peer

open Foundation

/-- A task with what was read into its buffer and written from it. -/
structure Transfer where
  task : Task
  input : List UInt8 := []
  output : List UInt8 := []

inductive Call where
  | read (answer : Answer (List UInt8))
  | write (answer : Answer Nat)
  deriving DecidableEq, Repr

namespace Transfer

def read (answer : Answer (List UInt8)) (x : Transfer) : TaskbufResult × Transfer :=
  ((readToTaskbuf answer x.task).1, { x with
    task := (readToTaskbuf answer x.task).2
    input := x.input ++ bytesRead answer x.task })

def write (answer : Answer Nat) (x : Transfer) : TaskbufResult × Transfer :=
  ((writeFromTaskbuf answer x.task).1, { x with
    task := (writeFromTaskbuf answer x.task).2.2
    output := x.output ++ (writeFromTaskbuf answer x.task).2.1 })

def call (x : Transfer) : Call → Transfer
  | .read answer => (x.read answer).2
  | .write answer => (x.write answer).2

/-- A transfer with an emptied buffer, as the copy loops start it. -/
def start (t : Task) : Transfer := { task := t.emptied }

end Transfer

/-- The buffer holds exactly the bytes that were read and not yet written. -/
structure Streams (x : Transfer) : Prop where
  bounded : x.task.Bounded
  sent : x.output <+: x.input
  unread : x.task.unread = x.input.drop x.output.length

namespace Streams

variable {x : Transfer} {t : Task}

theorem of_append (hbounded : x.task.Bounded)
    (happend : x.output ++ x.task.unread = x.input) : Streams x where
  bounded := hbounded
  sent := ⟨_, happend⟩
  unread := by rw [← happend, List.drop_left]

theorem append (h : Streams x) : x.output ++ x.task.unread = x.input := by
  rw [h.unread]
  exact (List.prefix_iff_eq_append.mp h.sent)

theorem start (t : Task) : Streams (.start t) :=
  .of_append t.emptied_bounded (by simp [Transfer.start])

theorem read (h : Streams x) (answer : Answer (List UInt8)) :
    Streams (x.read answer).2 := by
  obtain ⟨hbounded, hunread⟩ := readToTaskbuf_spec answer h.bounded
  refine .of_append hbounded ?_
  simp only [Transfer.read]
  rw [hunread, ← List.append_assoc, h.append]

theorem write (h : Streams x) (answer : Answer Nat) : Streams (x.write answer).2 := by
  obtain ⟨hbounded, hunread⟩ := writeFromTaskbuf_spec answer h.bounded
  refine .of_append hbounded ?_
  simp only [Transfer.write]
  rw [List.append_assoc, hunread, h.append]

theorem calls (h : Streams x) (calls : List Call) :
    Streams (calls.foldl Transfer.call x) := by
  induction calls generalizing x with
  | nil => exact h
  | cons call calls ih =>
      cases call with
      | read answer => exact ih (h.read answer)
      | write answer => exact ih (h.write answer)

/-- With nothing unread everything was written. -/
theorem output_eq (h : Streams x) (hempty : x.task.head = x.task.tail) :
    x.output = x.input := by
  have hcount := x.task.count_eq_zero_iff.mpr hempty
  have hnone : x.task.unread = [] := List.eq_nil_of_length_eq_zero (by simp [hcount])
  rw [← h.append, hnone, List.append_nil]

end Streams

/-! ## The copy loops -/

/-- A file or connection with these bytes left answers: it moves any number of
them, and none only at its end. -/
def sysRead (source : List UInt8) (size : Nat) : Answer Nat → Answer (List UInt8)
  | .moved amt => .moved (source.take (min size (amt + 1)))
  | .again => .again
  | .failed => .failed

inductive CopyEnd where
  | endOfFile
  | readError
  | writeError
  | tooLarge
  | slowPeer
  deriving DecidableEq, Repr

/-- The copy loop of `task_upload`.  `none`: it has not ended with these answers. -/
def uploadLoop :
    List (Answer Nat × Answer Nat) → List UInt8 → Transfer → Option (CopyEnd × Transfer)
  | [], _, _ => none
  | (written, moved) :: answers, source, x =>
      let (ret, x) := x.write written
      if ret = .tbufError then some (.writeError, x)
      else
        let answer := sysRead source x.task.readSize moved
        let source := source.drop (bytesRead answer x.task).length
        let (ret, x) := x.read answer
        if ret = .tbufError then some (.readError, x)
        else if ret = .tbufEnd ∧ x.task.head = x.task.tail then some (.endOfFile, x)
        else uploadLoop answers source x

def maxFilesize : Nat := 10 * 1024 * 1024

def samplesize : Nat := 10

def minTransrate : Int := 64

/-- `rate_sample`, `last_written` and `j` of `task_download` -/
structure Rate where
  sample : List Int := List.replicate samplesize (samplesize * minTransrate)
  lastWritten : Int := 0
  j : Nat := 0
  deriving DecidableEq, Repr

def Rate.add (r : Rate) (totalWritten : Nat) : Rate :=
  let j := r.j % samplesize
  { sample := r.sample.set j (totalWritten - r.lastWritten)
    lastWritten := totalWritten
    j := j + 1 }

/-- The copy loop of `task_download`. -/
def downloadLoop : List (Answer Nat × Answer Nat) → List UInt8 → Rate → Transfer →
    Option (CopyEnd × Transfer)
  | [], _, _, _ => none
  | (moved, written) :: answers, source, r, x =>
      let answer := sysRead source x.task.readSize moved
      let source := source.drop (bytesRead answer x.task).length
      let (ret, x) := x.read answer
      if ret = .tbufError then some (.readError, x)
      else if ret = .tbufEnd ∧ x.task.head = x.task.tail then some (.endOfFile, x)
      else
        let (ret, x) := x.write written
        if ret = .tbufError then some (.writeError, x)
        else if maxFilesize < x.task.totalWritten then some (.tooLarge, x)
        else
          let r := r.add x.task.totalWritten
          if r.sample.sum.tdiv samplesize < minTransrate then some (.slowPeer, x)
          else downloadLoop answers source r x

/-! ## Nothing is lost at the end -/

section Loops

variable {source : List UInt8} {size : Nat} {x y : Transfer}
  {answers : List (Answer Nat × Answer Nat)}

/-- What was read and what the source has left. -/
theorem bytesRead_append (moved : Answer Nat) (t : Task) :
    bytesRead (sysRead source size moved) t ++
      source.drop (bytesRead (sysRead source size moved) t).length = source := by
  cases moved with
  | again => rfl
  | failed => rfl
  | moved amt =>
      apply List.prefix_iff_eq_append.mp
      exact (List.take_prefix _ _).trans (List.take_prefix _ _)

theorem input_append (moved : Answer Nat) :
    (x.read (sysRead source size moved)).2.input ++
      source.drop (bytesRead (sysRead source size moved) x.task).length =
        x.input ++ source := by
  simp only [Transfer.read]
  rw [List.append_assoc, bytesRead_append]

/-- `TBUF_END` with an empty buffer: the source has ended, all was written. -/
theorem Streams.endOfFile (h : Streams x) (moved : Answer Nat)
    (hend : (x.read (sysRead source x.task.readSize moved)).1 = .tbufEnd)
    (hempty : (x.read (sysRead source x.task.readSize moved)).2.task.head =
      (x.read (sysRead source x.task.readSize moved)).2.task.tail) :
    (x.read (sysRead source x.task.readSize moved)).2.output = x.input ++ source := by
  obtain ⟨hmoved, hsize⟩ := readToTaskbuf_end _ h.bounded hend hempty
  have hsource : source = [] := by
    cases moved with
    | again => simp [sysRead] at hmoved
    | failed => simp [sysRead] at hmoved
    | moved amt =>
        simp only [sysRead, Answer.moved.injEq, List.take_eq_nil_iff] at hmoved
        rcases hmoved with hnone | hnil
        · omega
        · exact hnil
  rw [(h.read _).output_eq hempty, ← input_append moved, hsource, List.drop_nil,
    List.append_nil]

theorem uploadLoop_endOfFile (h : Streams x)
    (hend : uploadLoop answers source x = some (.endOfFile, y)) :
    y.output = x.input ++ source := by
  induction answers generalizing source x with
  | nil => simp [uploadLoop] at hend
  | cons answer answers ih =>
      obtain ⟨written, moved⟩ := answer
      simp only [uploadLoop] at hend
      have hwritten := h.write written
      split at hend
      · simp at hend
      · split at hend
        · simp at hend
        · split at hend
          · rename_i hstop
            obtain rfl := (Prod.mk.inj (Option.some.inj hend)).2
            exact hwritten.endOfFile moved hstop.1 hstop.2
          · rw [ih (hwritten.read _) hend, input_append]
            rfl

theorem downloadLoop_endOfFile (h : Streams x) {r : Rate}
    (hend : downloadLoop answers source r x = some (.endOfFile, y)) :
    y.output = x.input ++ source := by
  induction answers generalizing source x r with
  | nil => simp [downloadLoop] at hend
  | cons answer answers ih =>
      obtain ⟨moved, written⟩ := answer
      simp only [downloadLoop] at hend
      split at hend
      · simp at hend
      · split at hend
        · rename_i hstop
          obtain rfl := (Prod.mk.inj (Option.some.inj hend)).2
          exact h.endOfFile moved hstop.1 hstop.2
        · have hread := h.read (sysRead source x.task.readSize moved)
          repeat' split at hend
          · simp at hend
          · simp at hend
          · simp at hend
          · rw [ih (hread.write written) hend]
            exact input_append moved

end Loops

/-- Any calls keep the stream, and a copy loop that ends with the end of its
source has written all of it. -/
theorem taskBuffer_streams (t : Task) :
    (∀ calls : List Call, Streams (calls.foldl Transfer.call (.start t))) ∧
      (∀ answers source y,
        uploadLoop answers source (.start t) = some (.endOfFile, y) →
          y.output = source) ∧
      ∀ answers source r y,
        downloadLoop answers source r (.start t) = some (.endOfFile, y) →
          y.output = source :=
  ⟨(Streams.start t).calls, fun _ _ _ => uploadLoop_endOfFile (.start t),
    fun _ _ _ _ => downloadLoop_endOfFile (.start t)⟩

/-- One copy that needs several calls of each kind. -/
def uploadAnswers : List (Answer Nat × Answer Nat) :=
  [(.moved 9, .moved 1), (.moved 0, .again), (.moved 1, .moved 9),
    (.moved 9, .moved 0)]

theorem taskBuffer_streams_upload :
    ∃ y, uploadLoop uploadAnswers [104, 105, 33]
        (.start (taskNew .upload fun _ => 0)) = some (.endOfFile, y) ∧
      y.output = [104, 105, 33] := by
  have hend : (uploadLoop uploadAnswers [104, 105, 33]
      (.start (taskNew .upload fun _ => 0))).map (·.1) = some .endOfFile := by
    decide
  obtain ⟨⟨ending, y⟩, hrun, rfl⟩ := Option.map_eq_some_iff.mp hend
  exact ⟨y, hrun, (taskBuffer_streams _).2.1 _ _ y hrun⟩

end Cs111Labs.Peer
