import Cs111Labs.Digest.TextDigest
import Cs111Labs.Peer.DownloadRuns

/-!
# The digest of a download

A download with the state of its digest as `md5.c` keeps it.  It does what the
download does that is compared by the text of the digest of all appended bytes,
and what it accepts has the checksum of the tracker.
-/

namespace Cs111Labs.Peer

open Foundation
open Digest (Md5State md5Init md5Append md5FinishText finishText md5)

/-- The text of the digest of a message. -/
def textOf (message : List UInt8) : List UInt8 := finishText true (md5 message) 0

structure Digesting where
  download : Download
  md5State : Md5State

namespace Digesting

/-- What a step does to the state of the digest. -/
def digest (event : DownloadEvent) (x : Digesting) : Md5State :=
  match event with
  | .copy moved _ =>
      let task := x.download.transfer.task
      if task.type = .download then md5Append x.md5State (bytesRead moved task) else x.md5State
  | .compare => (md5FinishText x.md5State true).1
  | _ => x.md5State

def step (event : DownloadEvent) (x : Digesting) : Option Digesting :=
  let text := (md5FinishText x.md5State true).2
  (x.download.step (fun _ => text) event).map fun d => ⟨d, digest event x⟩

/-- The state of the digest is that of the bytes that were appended. -/
structure Refines (peers : Nat) (x : Digesting) : Prop where
  inv : DownloadInv peers x.download
  holds : Digest.Holds x.md5State x.download.transfer.task.md5State

variable {peers : Nat} {x x' : Digesting}

theorem pass_input (moved : Answer (List UInt8)) (written : Answer Nat) (r : Rate)
    (x : Transfer) : (downloadPass moved written r x).2.2.input =
      x.input ++ bytesRead moved x.task := by
  rw [downloadPass]
  dsimp only
  split_ifs <;> rfl

/-- A pass appends what it has read. -/
theorem pass_md5State {x : Transfer} (h : Counted x) (moved : Answer (List UInt8))
    (written : Answer Nat) (r : Rate) : (downloadPass moved written r x).2.2.task.md5State =
      x.task.md5State ++ bytesRead moved x.task := by
  obtain ⟨bytes, hinput, hstate⟩ := (h.pass moved written r).2.1.received
  rw [pass_input] at hinput
  rw [hstate, List.append_cancel_left hinput]

theorem length_bytesRead {t : Task} (h : t.Bounded) (moved : Answer (List UInt8)) :
    (bytesRead moved t).length < 2 ^ 28 := by
  have hsize := (t.readSize_le h).2
  cases moved with
  | moved bytes =>
      rw [bytesRead, List.length_take]
      unfold taskbufsiz at hsize
      omega
  | again => exact Nat.two_pow_pos 28
  | failed => exact Nat.two_pow_pos 28

theorem enter_transfer (d : Download) (connects : Bool) :
    (d.enter connects).transfer = d.transfer := by
  rw [Download.enter]
  cases d.peerList with
  | nil => rfl
  | cons peer peers =>
      dsimp only
      split_ifs <;> rfl

theorem openFile_transfer (d : Download) (i : Nat) (fails : Bool) :
    (d.openFile i fails).transfer = d.transfer := by
  rw [Download.openFile]
  dsimp only
  split_ifs <;> rfl

theorem copy_transfer (d : Download) (moved : Answer (List UInt8)) (written : Answer Nat) :
    (d.copy moved written).transfer = (downloadPass moved written d.rate d.transfer).2.2 := by
  rw [Download.copy]
  generalize downloadPass moved written d.rate d.transfer = pass
  obtain ⟨result, r, x⟩ := pass
  cases result with
  | none => rfl
  | some result =>
      cases result with
      | endOfFile =>
          dsimp only
          split_ifs <;> rfl
      | tooLarge =>
          dsimp only
          rw [Download.unlink]
          split_ifs <;> rfl
      | readError => rfl
      | writeError => rfl
      | slowPeer => rfl

theorem compare_md5State (d : Download) (md5Text : List UInt8 → List UInt8) :
    (d.compare md5Text).transfer.task.md5State =
      d.transfer.task.md5State ++ Digest.padding d.transfer.task.md5State.length := by
  rw [Download.compare]
  dsimp only
  split_ifs <;> rfl

theorem retry_md5State (d : Download) :
    d.retry.transfer.task.md5State = d.transfer.task.md5State := rfl

/-- Where a step is possible, by the place it starts from. -/
theorem step_cases {md5Text : List UInt8 → List UInt8} {event : DownloadEvent}
    {d d' : Download} (h : d.step md5Text event = some d') :
    (∃ connects, event = .enter connects ∧ d' = d.enter connects) ∨
    (∃ i fails, event = .openFile fails ∧ d' = d.openFile i fails) ∨
    (∃ moved written, event = .copy moved written ∧ d.phase = .copying ∧
      d' = d.copy moved written) ∨
    (event = .compare ∧ d.phase = .comparing ∧ d' = d.compare md5Text) ∨
    (event = .retry ∧ d' = d.retry) := by
  unfold Download.step at h
  split at h
  · exact .inl ⟨_, rfl, (Option.some.inj h).symm⟩
  · exact .inr (.inl ⟨_, _, rfl, (Option.some.inj h).symm⟩)
  · rename_i hphase
    exact .inr (.inr (.inl ⟨_, _, rfl, hphase, (Option.some.inj h).symm⟩))
  · rename_i hphase
    exact .inr (.inr (.inr (.inl ⟨rfl, hphase, (Option.some.inj h).symm⟩)))
  · exact .inr (.inr (.inr (.inr ⟨rfl, (Option.some.inj h).symm⟩)))
  · cases h

theorem step_congr {md5Text md5Text' : List UInt8 → List UInt8} {d : Download}
    (h : md5Text d.transfer.task.md5State = md5Text' d.transfer.task.md5State)
    (event : DownloadEvent) : d.step md5Text event = d.step md5Text' event := by
  have hcompare : d.compare md5Text = d.compare md5Text' := by
    rw [Download.compare, Download.compare, h]
  cases event <;> simp only [Download.step, hcompare]

theorem Refines.step_eq (h : Refines peers x) (event : DownloadEvent) :
    x.download.step (fun _ => (md5FinishText x.md5State true).2) event =
      x.download.step textOf event :=
  step_congr (Digest.md5FinishText_eq h.holds true) event

theorem Refines.step (h : Refines peers x) {event : DownloadEvent}
    (hstep : x.step event = some x') :
    x.download.step textOf event = some x'.download ∧ Refines peers x' := by
  obtain ⟨d, hd, rfl⟩ := Option.map_eq_some_iff.1 hstep
  rw [h.step_eq] at hd
  refine ⟨hd, h.inv.step hd, ?_⟩
  rcases step_cases hd with ⟨connects, rfl, rfl⟩ | ⟨i, fails, rfl, rfl⟩ |
    ⟨moved, written, rfl, -, rfl⟩ | ⟨rfl, -, rfl⟩ | ⟨rfl, rfl⟩
  · rw [enter_transfer]
    exact h.holds
  · rw [openFile_transfer]
    exact h.holds
  · have hcounted := h.inv.counted
    rw [copy_transfer, pass_md5State hcounted, digest, if_pos hcounted.type]
    exact (h.holds.append _ (length_bytesRead hcounted.streams.bounded moved)).1
  · rw [compare_md5State]
    exact (Digest.md5Finish_eq h.holds).2.1
  · rw [retry_md5State]
    exact h.holds

theorem Refines.of_fresh {d : Download} (h : d.Fresh) (buf : Memory) :
    Refines d.peerList.length ⟨d, md5Init buf⟩ where
  inv := DownloadInv.of_fresh h
  holds := by
    obtain ⟨old, hold⟩ := h.transfer
    rw [hold]
    exact Digest.holds_md5Init buf

/-- A download that has ended well: the file on disk is the end of a message with the checksum
of the tracker, behind the bytes of earlier peers. -/
def Verified (d : Download) : Prop :=
  d.phase = .ended .accepted → ∃ bytes file, d.dir d.diskFilename = some ⟨file, true⟩ ∧
    d.checksum = textOf (bytes ++ file) ∧ (bytes = [] ↔ d.earlier = [])

theorem verified_of_phase {d : Download} (h : d.phase ≠ .ended .accepted) : Verified d :=
  fun haccepted => absurd haccepted h

theorem enter_phase (d : Download) (connects : Bool) :
    (d.enter connects).phase ≠ .ended .accepted := by
  rw [Download.enter]
  cases d.peerList with
  | nil => simp
  | cons peer peers =>
      dsimp only
      split_ifs <;> simp

theorem openFile_phase (d : Download) (i : Nat) (fails : Bool) :
    (d.openFile i fails).phase ≠ .ended .accepted := by
  rw [Download.openFile]
  dsimp only
  split_ifs <;> simp

theorem copy_phase (d : Download) (moved : Answer (List UInt8)) (written : Answer Nat)
    (hphase : d.phase = .copying) : (d.copy moved written).phase ≠ .ended .accepted := by
  rw [Download.copy]
  generalize downloadPass moved written d.rate d.transfer = pass
  obtain ⟨result, r, x⟩ := pass
  cases result with
  | none => simp [Download.appendFile, hphase]
  | some result =>
      cases result with
      | endOfFile =>
          dsimp only
          split_ifs <;> simp
      | tooLarge => simp
      | readError => simp
      | writeError => simp
      | slowPeer => simp

theorem verified_compare {d : Download} (h : DownloadInv peers d) (hphase : d.phase = .comparing) :
    Verified (d.compare textOf) := by
  intro haccepted
  obtain ⟨hsent, -⟩ := h.comparing hphase
  have hdigests := h.digests
  simp only [Digests, hphase] at hdigests
  obtain ⟨bytes, hstate, hbytes⟩ := hdigests
  have hfile := (h.onDisk (.inr hphase)).1
  rw [Download.compare] at haccepted ⊢
  dsimp only at haccepted ⊢
  split_ifs at haccepted ⊢ with hchecksum
  refine ⟨bytes, d.transfer.output, hfile, ?_, hbytes⟩
  rw [hsent, ← hstate]
  exact hchecksum

theorem Refines.verified (h : Refines peers x) {event : DownloadEvent} {d : Download}
    (hstep : x.download.step textOf event = some d) : Verified d := by
  rcases step_cases hstep with ⟨connects, rfl, rfl⟩ | ⟨i, fails, rfl, rfl⟩ |
    ⟨moved, written, rfl, hphase, rfl⟩ | ⟨rfl, hphase, rfl⟩ | ⟨rfl, rfl⟩
  · exact verified_of_phase (enter_phase _ connects)
  · exact verified_of_phase (openFile_phase _ i fails)
  · exact verified_of_phase (copy_phase _ moved written hphase)
  · exact verified_compare h.inv hphase
  · exact verified_of_phase (by simp [Download.retry])

/-- Both downloads go the same way. -/
theorem Refines.runEvents (h : Refines peers x) (hverified : Verified x.download)
    (events : List DownloadEvent) :
    (runEvents Digesting.step events x).map (·.download) =
        runEvents (Download.step textOf) events x.download ∧
      ∀ x', runEvents Digesting.step events x = some x' → Verified x'.download := by
  induction events generalizing x with
  | nil =>
      refine ⟨rfl, ?_⟩
      rintro x' hx'
      rwa [← Option.some.inj hx']
  | cons event events ih =>
      have heq := h.step_eq event
      rw [Foundation.runEvents, Foundation.runEvents]
      cases hstep : x.download.step textOf event with
      | none =>
          have hnone : x.step event = none := by
            rw [Digesting.step, heq, hstep]
            rfl
          rw [hnone]
          refine ⟨rfl, fun x' hx' => ?_⟩
          cases hx'
      | some d =>
          have hsome : x.step event = some ⟨d, digest event x⟩ := by
            rw [Digesting.step, heq, hstep]
            rfl
          rw [hsome]
          exact ih (h.step hsome).2 (h.verified hstep)

/-- The digest kept part by part decides as that of all appended bytes would. -/
theorem download_verified (events : List DownloadEvent) (d₀ : Download) (buf : Memory)
    (hfresh : d₀.Fresh) :
    (runEvents Digesting.step events ⟨d₀, md5Init buf⟩).map (·.download) =
        runEvents (Download.step textOf) events d₀ ∧
      ∀ x, runEvents Digesting.step events ⟨d₀, md5Init buf⟩ = some x → Verified x.download :=
  (Refines.of_fresh hfresh buf).runEvents (verified_of_phase (by simp [hfresh.phase])) events

theorem download_verified_twoPeers :
    (runEvents Digesting.step (oneByte ++ [.compare])
        ⟨twoPeers (textOf [1]), md5Init fun _ => 0⟩).map (·.download) =
          runEvents (Download.step textOf) (oneByte ++ [.compare]) (twoPeers (textOf [1])) ∧
      ∀ x, runEvents Digesting.step (oneByte ++ [.compare])
        ⟨twoPeers (textOf [1]), md5Init fun _ => 0⟩ = some x → Verified x.download :=
  download_verified _ _ _ (twoPeers_fresh _)

end Digesting

end Cs111Labs.Peer
