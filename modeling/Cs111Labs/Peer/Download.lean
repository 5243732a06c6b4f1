import Cs111Labs.Peer.CopyLoop
import Cs111Labs.Peer.Writescan

/-!
# Downloading a file

`task_download` tries one peer after the other.  Each event of a run carries
what the system and the peer answer next; a run that has no event left waits
for an answer.
-/

namespace Cs111Labs.Peer

open Foundation

/-- `FILENAMESIZ` -/
def filenamesiz : Nat := 256

/-- The address and the port of a `peer_t`. -/
structure PeerAddr where
  addr : BitVec 32
  port : Int
  deriving DecidableEq, Repr

/-- A local file, and whether this download has created it. -/
structure DiskFile where
  bytes : List UInt8
  created : Bool
  deriving DecidableEq, Repr

inductive DownloadEnd where
  | noPeers
  | tooManyFiles
  | accepted
  /-- `sprintf` has written behind `disk_filename`. -/
  | overrun
  deriving DecidableEq, Repr

/-- The place in `task_download`. -/
inductive DownloadPhase where
  | starting
  | opening (i : Nat)
  | copying
  | comparing
  | tryAgain
  | ended (result : DownloadEnd)
  deriving DecidableEq, Repr

structure Download where
  filename : List UInt8
  checksum : List UInt8
  /-- `listen_addr` and `listen_port` -/
  listen : PeerAddr
  peerList : List PeerAddr
  /-- The task, with the bytes read and written for the current peer. -/
  transfer : Transfer
  rate : Rate := {}
  diskFilename : List UInt8 := []
  dir : List UInt8 → Option DiskFile
  phase : DownloadPhase := .starting
  /-- The peers tried so far. -/
  attempts : Nat := 0
  /-- The passes of the copy loop for the current peer. -/
  passes : Nat := 0
  /-- The bytes that earlier peers have sent. -/
  earlier : List UInt8 := []

inductive DownloadEvent where
  | enter (connects : Bool)
  /-- `open` fails with an error other than `EEXIST`, or not. -/
  | openFile (fails : Bool)
  | copy (moved : Answer (List UInt8)) (written : Answer Nat)
  | compare
  | retry
  deriving DecidableEq, Repr

/-- The padding and the length that `md5_finish` appends. -/
def md5Padding (appended : Nat) : List UInt8 :=
  128 :: List.replicate ((55 + 64 - appended % 64) % 64) 0 ++
    (List.range 8).map fun i => (8 * appended / 256 ^ i).toUInt8

/-- One pass of the loop that copies; `none`: the loop goes on. -/
def downloadPass (moved : Answer (List UInt8)) (written : Answer Nat) (r : Rate)
    (x : Transfer) : Option CopyEnd × Rate × Transfer :=
  let (ret, x) := x.read moved
  if ret = .tbufError then (some .readError, r, x)
  else if ret = .tbufEnd ∧ x.task.head = x.task.tail then (some .endOfFile, r, x)
  else
    let (ret, x) := x.write written
    if ret = .tbufError then (some .writeError, r, x)
    else if maxFilesize < x.task.totalWritten then (some .tooLarge, r, x)
    else
      let r := r.add x.task.totalWritten
      if r.sample.sum.tdiv samplesize < minTransrate then (some .slowPeer, r, x)
      else (none, r, x)

namespace Download

/-- The name that the local file gets at the attempt `i` to open one. -/
def localName (d : Download) (i : Nat) : List UInt8 :=
  if i = 0 then d.filename.take (filenamesiz - 1)
  else d.filename ++ [126] ++ printInt i ++ [126]

def unlink (d : Download) : Download :=
  if d.diskFilename = [] then d
  else { d with dir := Function.update d.dir d.diskFilename none }

/-- A file that was unlinked is not seen in the directory. -/
def appendFile (d : Download) (bytes : List UInt8) : Download :=
  let file := (d.dir d.diskFilename).map fun file => { file with bytes := file.bytes ++ bytes }
  { d with dir := Function.update d.dir d.diskFilename file }

def enter (d : Download) (connects : Bool) : Download :=
  match d.peerList with
  | [] => { d with phase := .ended .noPeers }
  | peer :: _ =>
      let d := { d with rate := {}, passes := 0, attempts := d.attempts + 1 }
      if peer = d.listen then { d with phase := .tryAgain }
      else if !connects then { d with phase := .tryAgain }
      else { d with phase := .opening 0 }

def openFile (d : Download) (i : Nat) (fails : Bool) : Download :=
  let name := d.localName i
  if filenamesiz ≤ name.length then { d with phase := .ended .overrun }
  else
    let d := { d with diskFilename := name }
    -- there is no file with an empty name
    if fails ∨ name = [] then { d with phase := .tryAgain }
    else if (d.dir name).isSome then
      if i + 1 < 50 then { d with phase := .opening (i + 1) }
      else { d with phase := .ended .tooManyFiles }
    else { d with dir := Function.update d.dir name (some ⟨[], true⟩), phase := .copying }

def copy (d : Download) (moved : Answer (List UInt8)) (written : Answer Nat) : Download :=
  let (result, r, x) := downloadPass moved written d.rate d.transfer
  let d := { d.appendFile (x.output.drop d.transfer.output.length) with
    rate := r, transfer := x, passes := d.passes + 1 }
  match result with
  | none => d
  | some .endOfFile =>
      -- an empty file is a symptom of some error
      if 0 < x.task.totalWritten then { d with phase := .comparing }
      else { d with phase := .tryAgain }
  | some .tooLarge => { d.unlink with phase := .tryAgain }
  | some _ => { d with phase := .tryAgain }

/-- `md5Text` is the text of the digest of the appended bytes. -/
def compare (md5Text : List UInt8 → List UInt8) (d : Download) : Download :=
  let appended := d.transfer.task.md5State
  let task := { d.transfer.task with
    md5State := appended ++ md5Padding appended.length }
  let d : Download := { d with transfer := { d.transfer with task := task } }
  if d.checksum = md5Text appended then { d with phase := .ended .accepted }
  else { d with phase := .tryAgain }

/-- The label `try_again`, with `task_pop_peer`. -/
def retry (d : Download) : Download :=
  let task := { d.transfer.task.emptied with totalWritten := 0 }
  { d.unlink with
    transfer := .start task
    diskFilename := []
    peerList := d.peerList.tail
    phase := .starting
    earlier := d.earlier ++ d.transfer.input }

def step (md5Text : List UInt8 → List UInt8) (event : DownloadEvent) (d : Download) :
    Option Download :=
  match event, d.phase with
  | .enter connects, .starting => some (d.enter connects)
  | .openFile fails, .opening i => some (d.openFile i fails)
  | .copy moved written, .copying => some (d.copy moved written)
  | .compare, .comparing => some (d.compare md5Text)
  | .retry, .tryAgain => some d.retry
  | _, _ => none

/-- A task of `start_download`, before `task_download` is called. -/
structure Fresh (d : Download) : Prop where
  phase : d.phase = .starting
  transfer : ∃ buf, d.transfer = .start (taskNew .download buf)
  diskFilename : d.diskFilename = []
  dir : ∀ name file, d.dir name = some file → file.created = false
  attempts : d.attempts = 0
  earlier : d.earlier = []

end Download

/-- The copy loop of `task_download` makes these passes. -/
theorem downloadLoop_cons (moved written : Answer Nat)
    (answers : List (Answer Nat × Answer Nat)) (source : List UInt8) (r : Rate)
    (x : Transfer) :
    downloadLoop ((moved, written) :: answers) source r x =
      match downloadPass (sysRead source x.task.readSize moved) written r x with
      | (some result, _, x') => some (result, x')
      | (none, r', x') => downloadLoop answers (source.drop
          (bytesRead (sysRead source x.task.readSize moved) x.task).length) r' x' := by
  rw [downloadLoop, downloadPass]
  dsimp only
  split_ifs <;> rfl

/-! ## One pass -/

/-- The task of a download, with what it counts and digests. -/
structure Counted (x : Transfer) : Prop where
  streams : Streams x
  type : x.task.type = .download
  written : x.task.totalWritten = x.output.length

/-- `x'` comes after `x` in the copy loop. -/
structure Follows (x x' : Transfer) : Prop where
  received : ∃ bytes, x'.input = x.input ++ bytes ∧
    x'.task.md5State = x.task.md5State ++ bytes
  sent : x.output <+: x'.output
  output_le : x'.output.length ≤ x.output.length + taskbufsiz

namespace Counted

variable {x : Transfer}

theorem read (h : Counted x) (answer : Answer (List UInt8)) :
    Counted (x.read answer).2 ∧ Follows x (x.read answer).2 ∧
      (x.read answer).2.output = x.output := by
  have hstreams := h.streams.read answer
  cases answer with
  | again => exact ⟨⟨hstreams, h.type, h.written⟩, ⟨⟨[], by simp [Transfer.read, bytesRead,
      readToTaskbuf]⟩, List.prefix_rfl, Nat.le_add_right _ _⟩, rfl⟩
  | failed => exact ⟨⟨hstreams, h.type, h.written⟩, ⟨⟨[], by simp [Transfer.read, bytesRead,
      readToTaskbuf]⟩, List.prefix_rfl, Nat.le_add_right _ _⟩, rfl⟩
  | moved bytes =>
      have htask : (x.read (.moved bytes)).2.task.type = x.task.type ∧
          (x.read (.moved bytes)).2.task.totalWritten = x.task.totalWritten ∧
          (x.read (.moved bytes)).2.task.md5State =
            x.task.md5State ++ bytes.take x.task.readSize := by
        simp only [Transfer.read, readToTaskbuf, h.type]
        split <;> simp
      exact ⟨⟨hstreams, htask.1.trans h.type, htask.2.1.trans h.written⟩,
        ⟨⟨_, rfl, htask.2.2⟩, List.prefix_rfl, Nat.le_add_right _ _⟩, rfl⟩

theorem write (h : Counted x) (answer : Answer Nat) :
    Counted (x.write answer).2 ∧ Follows x (x.write answer).2 := by
  have hstreams := h.streams.write answer
  have hkeep : Counted x ∧ Follows x x :=
    ⟨h, ⟨[], by simp, by simp⟩, List.prefix_rfl, Nat.le_add_right _ _⟩
  by_cases hempty : x.task.head = x.task.tail
  · have hsame : (x.write answer).2 = x := by
      simp [Transfer.write, writeFromTaskbuf, hempty]
    rwa [hsame]
  · cases answer with
    | again =>
        have hsame : (x.write .again).2 = x := by
          simp [Transfer.write, writeFromTaskbuf, hempty]
        rwa [hsame]
    | failed =>
        have hsame : (x.write .failed).2 = x := by
          simp [Transfer.write, writeFromTaskbuf, hempty]
        rwa [hsame]
    | moved amt =>
        have hsize := (x.task.writeSize_le h.streams.bounded hempty).2
        have htask : (x.write (.moved amt)).2.task.type = x.task.type ∧
            (x.write (.moved amt)).2.task.totalWritten =
              x.task.totalWritten + min amt x.task.writeSize ∧
            (x.write (.moved amt)).2.task.md5State = x.task.md5State ∧
            (x.write (.moved amt)).2.output.length =
              x.output.length + min amt x.task.writeSize := by
          simp only [Transfer.write, writeFromTaskbuf, if_neg hempty]
          split
          · rename_i hzero
            simp [hzero]
          · simp
        obtain ⟨htype, hwritten, hstate, hlength⟩ := htask
        refine ⟨⟨hstreams, htype.trans h.type, ?_⟩, ⟨[], ?_, ?_⟩, List.prefix_append _ _, ?_⟩
        · rw [hwritten, hlength, h.written]
        · exact (List.append_nil _).symm
        · rw [hstate, List.append_nil]
        · omega

end Counted

theorem Follows.trans {x y z : Transfer} (h : Follows x y) (h' : Follows y z)
    (houtput : y.output = x.output) : Follows x z := by
  obtain ⟨bytes, hinput, hstate⟩ := h.received
  obtain ⟨bytes', hinput', hstate'⟩ := h'.received
  refine ⟨⟨bytes ++ bytes', ?_, ?_⟩, houtput ▸ h'.sent, houtput ▸ h'.output_le⟩
  · rw [hinput', hinput, List.append_assoc]
  · rw [hstate', hstate, List.append_assoc]

/-- What a pass does to the task. -/
theorem Counted.pass {x : Transfer} (h : Counted x) (moved : Answer (List UInt8))
    (written : Answer Nat) (r : Rate) :
    Counted (downloadPass moved written r x).2.2 ∧
      Follows x (downloadPass moved written r x).2.2 ∧
      ((downloadPass moved written r x).1 = none →
        (downloadPass moved written r x).2.2.task.totalWritten ≤ maxFilesize) ∧
      ((downloadPass moved written r x).1 = some .endOfFile →
        (downloadPass moved written r x).2.2.output =
          (downloadPass moved written r x).2.2.input) := by
  obtain ⟨hread, hfollows, houtput⟩ := h.read moved
  obtain ⟨hwrite, hfollows'⟩ := hread.write written
  have hboth := hfollows.trans hfollows' houtput
  rw [downloadPass]
  dsimp only
  split_ifs with herror hend herror' hlarge hslow
  · exact ⟨hread, hfollows, nofun, nofun⟩
  · exact ⟨hread, hfollows, nofun, fun _ => hread.streams.output_eq hend.2⟩
  · exact ⟨hwrite, hboth, nofun, nofun⟩
  · exact ⟨hwrite, hboth, nofun, nofun⟩
  · exact ⟨hwrite, hboth, nofun, nofun⟩
  · exact ⟨hwrite, hboth, fun _ => not_lt.1 hlarge, nofun⟩

end Cs111Labs.Peer
