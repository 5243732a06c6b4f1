import Cs111Labs.Foundation.Ring
import Cs111Labs.Foundation.Run

/-!
# The task buffer of a peer

The bounded buffer of `task_t`.  `head` and `tail` count bytes modulo 2³²; the
bytes between them are unread.  What `read` and `write` do is an answer from
outside: they move some of the bytes they were asked for, or fail.
-/

namespace Cs111Labs.Peer

open Foundation

/-- A C `unsigned`. -/
abbrev Counter := BitVec 32

/-- `TASKBUFSIZ` -/
def taskbufsiz : Nat := 8192

inductive TaskType where
  | tracker
  | peerListen
  | upload
  | download
  deriving DecidableEq, Repr

/-- `taskbufresult_t`; `tbufEnd` is end of file, or a full buffer. -/
inductive TaskbufResult where
  | tbufError
  | tbufEnd
  | tbufOk
  | tbufAgain
  deriving DecidableEq, Repr

structure Task where
  type : TaskType
  buf : Nat → UInt8
  head : Counter
  tail : Counter
  totalWritten : Nat
  /-- What was given to `md5_append`. -/
  md5State : List UInt8

/-- The outcome of a system call: a result, `EINTR` or `EAGAIN`, another error. -/
inductive Answer (α : Type) where
  | moved (result : α)
  | again
  | failed
  deriving DecidableEq, Repr

/-- `task_new`; `malloc` leaves the buffer as it finds it. -/
def taskNew (type : TaskType) (buf : Nat → UInt8) : Task where
  type := type
  buf := buf
  head := 0
  tail := 0
  totalWritten := 0
  md5State := []

namespace Task

/-- `t->head = t->tail = 0` -/
def emptied (t : Task) : Task := { t with head := 0, tail := 0 }

def headpos (t : Task) : Nat := t.head.toNat % taskbufsiz

def tailpos (t : Task) : Nat := t.tail.toNat % taskbufsiz

/-- The size that `read_to_taskbuf` passes to `read`. -/
def readSize (t : Task) : Nat :=
  if t.head = t.tail ∨ t.headpos < t.tailpos then taskbufsiz - t.tailpos
  else t.headpos - t.tailpos

/-- The size that `write_from_taskbuf` passes to `write`. -/
def writeSize (t : Task) : Nat :=
  if t.headpos < t.tailpos then t.tailpos - t.headpos
  else taskbufsiz - t.headpos

end Task

/-- `read` was given room for `readSize` bytes and moves no more. -/
def readToTaskbuf (answer : Answer (List UInt8)) (t : Task) :
    TaskbufResult × Task :=
  match answer with
  | .again => (.tbufAgain, t)
  | .failed => (.tbufError, t)
  | .moved bytes =>
      let bytes := bytes.take t.readSize
      let t := { t with
        buf := Ring.store t.buf t.tailpos bytes
        md5State :=
          if t.type = .download then t.md5State ++ bytes else t.md5State }
      if bytes.length = 0 then (.tbufEnd, t)
      else (.tbufOk, { t with tail := t.tail + BitVec.ofNat 32 bytes.length })

/-- The bytes that were written come with the result. -/
def writeFromTaskbuf (answer : Answer Nat) (t : Task) :
    TaskbufResult × List UInt8 × Task :=
  if t.head = t.tail then (.tbufEnd, [], t)
  else
    match answer with
    | .again => (.tbufAgain, [], t)
    | .failed => (.tbufError, [], t)
    | .moved amt =>
        let amt := min amt t.writeSize
        if amt = 0 then (.tbufEnd, [], t)
        else (.tbufOk, Ring.segment t.buf t.headpos amt, { t with
          head := t.head + BitVec.ofNat 32 amt
          totalWritten := t.totalWritten + amt })

/-! ## The unread bytes -/

namespace Task

variable {t : Task}

/-- The number of unread bytes. -/
def count (t : Task) : Nat := (t.tail - t.head).toNat

def unread (t : Task) : List UInt8 :=
  Ring.contents taskbufsiz t.buf t.head.toNat t.count

/-- No more bytes are unread than the buffer holds. -/
def Bounded (t : Task) : Prop := t.count ≤ taskbufsiz

@[simp] theorem length_unread : t.unread.length = t.count := Ring.length_contents

theorem count_eq_zero_iff : t.count = 0 ↔ t.head = t.tail := by
  unfold count
  constructor
  · intro h
    bv_omega
  · intro h
    simp [h]

theorem tailpos_eq : t.tailpos = (t.head.toNat + t.count) % taskbufsiz := by
  unfold tailpos count taskbufsiz
  bv_omega

theorem emptied_bounded (t : Task) : t.emptied.Bounded := by
  simp [Bounded, count, emptied]

@[simp] theorem emptied_unread (t : Task) : t.emptied.unread = [] := by
  simp [unread, count, emptied]

/-- There is room for what `read` is asked for, up to the end of the cells. -/
theorem readSize_le (h : t.Bounded) :
    t.readSize ≤ taskbufsiz - t.count ∧ t.tailpos + t.readSize ≤ taskbufsiz := by
  have htail := t.tailpos_eq
  unfold Bounded at h
  unfold readSize headpos
  unfold taskbufsiz at *
  split
  · rename_i hfree
    rcases hfree with heq | hlt
    · have hcount := t.count_eq_zero_iff.mpr heq
      omega
    · omega
  · omega

/-- Only a full buffer leaves no room. -/
theorem readSize_eq_zero (h : t.Bounded) (hsize : t.readSize = 0) :
    t.count = taskbufsiz := by
  have htail := t.tailpos_eq
  unfold Bounded at h
  unfold readSize headpos at hsize
  unfold taskbufsiz at *
  split at hsize
  · omega
  · rename_i hfull
    have hcount : t.count ≠ 0 := fun hzero =>
      hfull (.inl (t.count_eq_zero_iff.mp hzero))
    omega

/-- `write` is asked for unread bytes, up to the end of the cells. -/
theorem writeSize_le (h : t.Bounded) (hne : t.head ≠ t.tail) :
    t.writeSize ≤ t.count ∧ t.headpos + t.writeSize ≤ taskbufsiz := by
  have hcount : t.count ≠ 0 := fun hzero => hne (t.count_eq_zero_iff.mp hzero)
  have htail := t.tailpos_eq
  unfold Bounded at h
  unfold writeSize headpos
  unfold taskbufsiz at *
  split <;> omega

end Task

/-! ## The effect of the calls -/

/-- What `read` moves into the buffer. -/
def bytesRead : Answer (List UInt8) → Task → List UInt8
  | .moved bytes, t => bytes.take t.readSize
  | _, _ => []

namespace Task

variable {t t' : Task} {n : Nat} {bytes : List UInt8}

/-- Bytes are put behind the unread ones. -/
theorem put (h : t.Bounded) (hlen : bytes.length ≤ t.readSize)
    (hbuf : t'.buf = Ring.store t.buf t.tailpos bytes) (hhead : t'.head = t.head)
    (htail : t'.tail = t.tail + BitVec.ofNat 32 bytes.length) :
    t'.Bounded ∧ t'.unread = t.unread ++ bytes := by
  obtain ⟨hroom, hfits⟩ := t.readSize_le h
  have hcount : t'.count = t.count + bytes.length := by
    unfold Bounded at h
    unfold count taskbufsiz at *
    rw [hhead, htail]
    bv_omega
  have hcells : (t.head.toNat + t.count) % taskbufsiz + bytes.length ≤ taskbufsiz := by
    rw [← t.tailpos_eq]
    omega
  have hstore := Ring.contents_store t.buf (hlen.trans hroom) hcells
  rw [← t.tailpos_eq] at hstore
  constructor
  · unfold Bounded at *
    omega
  · rw [unread, hcount, hbuf, hhead, hstore]
    rfl

/-- The oldest of the unread bytes are taken. -/
theorem take (h : t.Bounded) (hne : t.head ≠ t.tail) (hn : n ≤ t.writeSize)
    (hbuf : t'.buf = t.buf) (hhead : t'.head = t.head + BitVec.ofNat 32 n)
    (htail : t'.tail = t.tail) :
    t'.Bounded ∧ Ring.segment t.buf t.headpos n ++ t'.unread = t.unread := by
  obtain ⟨hsize, hfits⟩ := t.writeSize_le h hne
  have hle : n ≤ t.count := hn.trans hsize
  have hcount : t'.count = t.count - n := by
    unfold count at *
    rw [hhead, htail]
    bv_omega
  have hstart : t'.head.toNat % taskbufsiz = (t.head.toNat + n) % taskbufsiz := by
    rw [hhead]
    simp only [BitVec.toNat_add, BitVec.toNat_ofNat, taskbufsiz]
    omega
  have htaken := Ring.segment_append_contents t.buf hle
    (show t.headpos + n ≤ taskbufsiz by omega)
  constructor
  · unfold Bounded at *
    omega
  · rw [unread, hcount, hbuf, Ring.contents_congr hstart]
    exact htaken

end Task

section Calls

variable {t : Task}

theorem readToTaskbuf_spec (answer : Answer (List UInt8)) (h : t.Bounded) :
    (readToTaskbuf answer t).2.Bounded ∧
      (readToTaskbuf answer t).2.unread = t.unread ++ bytesRead answer t := by
  cases answer with
  | again => exact ⟨h, (List.append_nil _).symm⟩
  | failed => exact ⟨h, (List.append_nil _).symm⟩
  | moved bytes =>
      have hlen : (bytes.take t.readSize).length ≤ t.readSize := by simp
      simp only [readToTaskbuf, bytesRead]
      split
      · rename_i hzero
        refine Task.put h hlen rfl rfl ?_
        rw [hzero]
        exact (BitVec.add_zero t.tail).symm
      · exact Task.put h hlen rfl rfl rfl

theorem writeFromTaskbuf_spec (answer : Answer Nat) (h : t.Bounded) :
    (writeFromTaskbuf answer t).2.2.Bounded ∧
      (writeFromTaskbuf answer t).2.1 ++ (writeFromTaskbuf answer t).2.2.unread =
        t.unread := by
  unfold writeFromTaskbuf
  split
  · exact ⟨h, rfl⟩
  · rename_i hne
    cases answer with
    | again => exact ⟨h, rfl⟩
    | failed => exact ⟨h, rfl⟩
    | moved amt =>
        dsimp only
        split
        · exact ⟨h, rfl⟩
        · exact Task.take h hne (Nat.min_le_right _ _) rfl rfl rfl

/-- `TBUF_END` with nothing unread is the end of the file. -/
theorem readToTaskbuf_end (answer : Answer (List UInt8)) (h : t.Bounded)
    (hend : (readToTaskbuf answer t).1 = .tbufEnd)
    (hempty : (readToTaskbuf answer t).2.head = (readToTaskbuf answer t).2.tail) :
    answer = .moved [] ∧ t.readSize ≠ 0 := by
  cases answer with
  | again => simp [readToTaskbuf] at hend
  | failed => simp [readToTaskbuf] at hend
  | moved bytes =>
      simp only [readToTaskbuf] at hend hempty
      split at hend
      · rename_i hzero
        rw [if_pos hzero] at hempty
        have hcount : t.count = 0 := t.count_eq_zero_iff.mpr hempty
        have hsize : t.readSize ≠ 0 := by
          intro hfull
          have hcells := t.readSize_eq_zero h hfull
          unfold taskbufsiz at hcells
          omega
        have hnil : bytes.length = 0 := by
          rw [List.length_take] at hzero
          omega
        exact ⟨by rw [List.eq_nil_of_length_eq_zero hnil], hsize⟩
      · simp at hend

end Calls

end Cs111Labs.Peer
