import Cs111Labs.Foundation.Run
import Cs111Labs.Peer.Download

/-!
# Runs of a download

What a download leaves on disk at every point of its run, and what its digest
covers when the checksums are compared.
-/

namespace Cs111Labs.Peer

open Foundation

/-! ## The invariant -/

/-- The phases in which the file of the current peer may be on disk. -/
def DownloadPhase.HasFile : DownloadPhase → Prop
  | copying | comparing | tryAgain | ended .accepted => True
  | _ => False

/-- The peers tried and the peers left, of so many. -/
def Counts (peers : Nat) (d : Download) : Prop :=
  match d.phase with
  | .starting => d.attempts + d.peerList.length = peers
  | .ended _ => d.attempts ≤ peers
  | _ => d.attempts + d.peerList.length = peers + 1 ∧ d.peerList ≠ []

/-- What was digested; the bytes of earlier peers come first. -/
def Digests (d : Download) : Prop :=
  match d.phase with
  | .ended _ => True
  | .tryAgain =>
      d.transfer.task.md5State = [] ↔ d.earlier = [] ∧ d.transfer.input = []
  | _ => ∃ bytes, d.transfer.task.md5State = bytes ++ d.transfer.input ∧
      (bytes = [] ↔ d.earlier = [])

structure DownloadInv (peers : Nat) (d : Download) : Prop where
  counted : Counted d.transfer
  nothing : d.phase = .starting ∨ (∃ i, d.phase = .opening i) →
    d.transfer.input = [] ∧ d.transfer.output = []
  onDisk : d.phase = .copying ∨ d.phase = .comparing →
    d.dir d.diskFilename = some ⟨d.transfer.output, true⟩ ∧ d.diskFilename ≠ []
  created : ∀ name file, d.dir name = some file → file.created = true →
    d.phase.HasFile ∧ name = d.diskFilename ∧ file.bytes = d.transfer.output ∧ name ≠ []
  size : d.transfer.output.length ≤ maxFilesize + taskbufsiz
  copying : d.phase = .copying → d.transfer.output.length ≤ maxFilesize
  comparing : d.phase = .comparing →
    d.transfer.output = d.transfer.input ∧ d.transfer.output ≠ []
  counts : Counts peers d
  digests : Digests d

namespace DownloadInv

variable {peers : Nat} {d d' : Download}

theorem of_fresh (h : d.Fresh) : DownloadInv d.peerList.length d where
  counted := by
    obtain ⟨buf, hbuf⟩ := h.transfer
    rw [hbuf]
    exact ⟨Streams.start _, rfl, rfl⟩
  nothing _ := by
    obtain ⟨buf, hbuf⟩ := h.transfer
    rw [hbuf]
    exact ⟨rfl, rfl⟩
  onDisk hphase := by
    rw [h.phase] at hphase
    rcases hphase with hphase | hphase <;> cases hphase
  created name file hfile hcreated := by
    rw [h.dir name file hfile] at hcreated
    cases hcreated
  size := by
    obtain ⟨buf, hbuf⟩ := h.transfer
    rw [hbuf]
    exact Nat.zero_le _
  copying hphase := by
    rw [h.phase] at hphase
    cases hphase
  comparing hphase := by
    rw [h.phase] at hphase
    cases hphase
  counts := by
    simp [Counts, h.phase, h.attempts]
  digests := by
    obtain ⟨buf, hbuf⟩ := h.transfer
    simp only [Digests, h.phase, hbuf, h.earlier]
    exact ⟨[], rfl, by simp⟩

theorem none_created (h : DownloadInv peers d) (hphase : ¬ d.phase.HasFile) (name file)
    (hfile : d.dir name = some file) : file.created = false := by
  cases hcreated : file.created with
  | false => rfl
  | true => exact absurd (h.created name file hfile hcreated).1 hphase

theorem enter (h : DownloadInv peers d) (hphase : d.phase = .starting) (connects : Bool) :
    DownloadInv peers (d.enter connects) := by
  have hnone : ∀ name file, d.dir name = some file → file.created = true → False := by
    intro name file hfile hcreated
    have hfalse := h.none_created (by simp [hphase, DownloadPhase.HasFile]) name file hfile
    rw [hfalse] at hcreated
    cases hcreated
  have hcounts := h.counts
  have hdigests := h.digests
  have hempty := (h.nothing (.inl hphase))
  simp only [Counts, Digests, hphase] at hcounts hdigests
  have htry : d.peerList ≠ [] → DownloadInv peers { d with
      rate := {}, passes := 0, attempts := d.attempts + 1, phase := .tryAgain } := by
    intro hpeers
    obtain ⟨bytes, hstate, hearlier⟩ := hdigests
    exact {
      counted := h.counted
      nothing := by simp
      onDisk := by simp
      created := fun name file hfile hcreated => (hnone name file hfile hcreated).elim
      size := h.size
      copying := nofun
      comparing := nofun
      counts := ⟨by simp only; omega, hpeers⟩
      digests := by simp [Digests, hstate, hearlier] }
  rw [Download.enter]
  cases hpeers : d.peerList with
  | nil =>
      exact {
        counted := h.counted
        nothing := by simp
        onDisk := by simp
        created := fun name file hfile hcreated => (hnone name file hfile hcreated).elim
        size := h.size
        copying := nofun
        comparing := nofun
        counts := by
          simp only [Counts]
          omega
        digests := trivial }
  | cons peer peers' =>
      have hne : d.peerList ≠ [] := by simp [hpeers]
      dsimp only
      split_ifs with hself hconnects
      · rw [← hpeers]
        exact htry hne
      · rw [← hpeers]
        exact htry hne
      · rw [← hpeers]
        exact {
          counted := h.counted
          nothing := fun _ => hempty
          onDisk := by simp
          created := fun name file hfile hcreated => (hnone name file hfile hcreated).elim
          size := h.size
          copying := nofun
          comparing := nofun
          counts := ⟨by simp only; omega, hne⟩
          digests := hdigests }

theorem openFile (h : DownloadInv peers d) {i : Nat} (hphase : d.phase = .opening i)
    (fails : Bool) : DownloadInv peers (d.openFile i fails) := by
  have hnone := h.none_created (by simp [hphase, DownloadPhase.HasFile])
  have hcreated : ∀ {P : Prop} name file, d.dir name = some file →
      file.created = true → P := by
    intro P name file hfile hcreated
    rw [hnone name file hfile] at hcreated
    cases hcreated
  have hcounts := h.counts
  have hdigests := h.digests
  have hempty := (h.nothing (.inr ⟨i, hphase⟩))
  simp only [Counts, Digests, hphase] at hcounts hdigests
  have hended : ∀ (name : List UInt8) (result : DownloadEnd),
      DownloadInv peers { d with diskFilename := name, phase := .ended result } := by
    intro name result
    exact {
      counted := h.counted
      nothing := by simp
      onDisk := by simp
      created := fun _ _ => hcreated _ _
      size := h.size
      copying := nofun
      comparing := nofun
      counts := by
        have hpos := List.length_pos_iff.mpr hcounts.2
        simp only [Counts]
        omega
      digests := trivial }
  rw [Download.openFile]
  dsimp only
  split_ifs with hlong hfails hexists hmore
  · exact hended d.diskFilename .overrun
  · obtain ⟨bytes, hstate, hearlier⟩ := hdigests
    exact {
      counted := h.counted
      nothing := by simp
      onDisk := by simp
      created := fun _ _ => hcreated _ _
      size := h.size
      copying := nofun
      comparing := nofun
      counts := hcounts
      digests := by simp [Digests, hstate, hearlier] }
  · exact {
      counted := h.counted
      nothing := fun _ => hempty
      onDisk := by simp
      created := fun _ _ => hcreated _ _
      size := h.size
      copying := nofun
      comparing := nofun
      counts := hcounts
      digests := hdigests }
  · exact hended _ .tooManyFiles
  · have hname : d.localName i ≠ [] := fun hnil => hfails (.inr hnil)
    exact {
      counted := h.counted
      nothing := by simp
      onDisk := fun _ => ⟨by simp [hempty.2], hname⟩
      created := by
        intro name file hfile hnew
        by_cases hsame : name = d.localName i
        · simp only [hsame, Function.update_self, Option.some.injEq] at hfile
          exact ⟨trivial, hsame, by rw [← hfile, hempty.2], hsame ▸ hname⟩
        · simp only [Function.update_of_ne hsame] at hfile
          exact hcreated _ _ hfile hnew
      size := h.size
      copying := fun _ => by simp [hempty.2]
      comparing := nofun
      counts := hcounts
      digests := hdigests }

/-- `copying` with what a pass has moved. -/
theorem moved (h : DownloadInv peers d) (hphase : d.phase = .copying) {x : Transfer}
    (hcounted : Counted x) (hfollows : Follows d.transfer x) (r : Rate) {e : Download}
    (he : e = { d.appendFile (x.output.drop d.transfer.output.length) with
      rate := r, transfer := x, passes := d.passes + 1 }) :
    DownloadInv peers { e with phase := .tryAgain } ∧
      (x.task.totalWritten ≤ maxFilesize → DownloadInv peers e) ∧
      (x.output = x.input → x.output ≠ [] →
        DownloadInv peers { e with phase := .comparing }) := by
  obtain ⟨hfile, hname⟩ := h.onDisk (.inl hphase)
  obtain ⟨received, hinput, hstate⟩ := hfollows.received
  have happend : d.transfer.output ++ x.output.drop d.transfer.output.length = x.output :=
    List.prefix_iff_eq_append.mp hfollows.sent
  have hsize : x.output.length ≤ maxFilesize + taskbufsiz := by
    have hold := h.copying hphase
    have hgrown := hfollows.output_le
    omega
  have hcounts := h.counts
  have hdigests := h.digests
  simp only [Counts, Digests, hphase] at hcounts hdigests
  obtain ⟨bytes, hbefore, hearlier⟩ := hdigests
  have hafter : x.task.md5State = bytes ++ x.input := by
    rw [hstate, hbefore, hinput, List.append_assoc]
  have hdir : e.dir = Function.update d.dir d.diskFilename (some ⟨x.output, true⟩) := by
    rw [he]
    simp [Download.appendFile, hfile, happend]
  have hdisk : e.diskFilename = d.diskFilename := by
    rw [he]
    rfl
  have hon : e.dir e.diskFilename = some ⟨x.output, true⟩ ∧ e.diskFilename ≠ [] := by
    rw [hdir, hdisk]
    exact ⟨Function.update_self .., hname⟩
  have hcreated : ∀ name file, e.dir name = some file → file.created = true →
      name = e.diskFilename ∧ file.bytes = x.output ∧ name ≠ [] := by
    intro name file hsome hnew
    rw [hdir] at hsome
    rw [hdisk]
    by_cases hsame : name = d.diskFilename
    · rw [hsame, Function.update_self, Option.some.injEq] at hsome
      exact ⟨hsame, hsome ▸ rfl, hsame ▸ hname⟩
    · rw [Function.update_of_ne hsame] at hsome
      exact absurd (h.created name file hsome hnew).2.1 hsame
  have hkeep : e.transfer = x ∧ e.attempts = d.attempts ∧ e.peerList = d.peerList ∧
      e.earlier = d.earlier ∧ e.phase = .copying := by
    rw [he]
    exact ⟨rfl, rfl, rfl, rfl, hphase⟩
  obtain ⟨hx, hattempts, hpeers, hearly, hcopying⟩ := hkeep
  refine ⟨?_, fun hlimit => ?_, fun hsent hne => ?_⟩
  · exact {
      counted := hx ▸ hcounted
      nothing := by simp
      onDisk := by simp
      created := fun name file hsome hnew => ⟨trivial, hx ▸ hcreated name file hsome hnew⟩
      size := hx ▸ hsize
      copying := nofun
      comparing := nofun
      counts := by
        simp only [Counts]
        rw [hattempts, hpeers]
        exact hcounts
      digests := by
        simp [Digests, hx, hafter, hearly, hearlier] }
  · exact {
      counted := hx ▸ hcounted
      nothing := by simp [hcopying]
      onDisk := fun _ => hx ▸ hon
      created := fun name file hsome hnew =>
        ⟨hcopying ▸ trivial, hx ▸ hcreated name file hsome hnew⟩
      size := hx ▸ hsize
      copying := fun _ => by
        rw [hx, ← hcounted.written]
        exact hlimit
      comparing := by simp [hcopying]
      counts := by
        simp only [Counts, hcopying]
        rw [hattempts, hpeers]
        exact hcounts
      digests := by
        simp only [Digests, hcopying, hx, hearly]
        exact ⟨bytes, hafter, hearlier⟩ }
  · exact {
      counted := hx ▸ hcounted
      nothing := by simp
      onDisk := fun _ => hx ▸ hon
      created := fun name file hsome hnew => ⟨trivial, hx ▸ hcreated name file hsome hnew⟩
      size := hx ▸ hsize
      copying := nofun
      comparing := fun _ => hx ▸ ⟨hsent, hne⟩
      counts := by
        simp only [Counts]
        rw [hattempts, hpeers]
        exact hcounts
      digests := by
        simp only [Digests, hx, hearly]
        exact ⟨bytes, hafter, hearlier⟩ }

/-- Before the next peer the file of this one is removed. -/
theorem unlink_created (h : DownloadInv peers d)
    (name : List UInt8) (file : DiskFile) (hfile : d.unlink.dir name = some file) :
    file.created = false := by
  cases hnew : file.created with
  | false => rfl
  | true =>
      exfalso
      unfold Download.unlink at hfile
      split at hfile
      · rename_i hnil
        obtain ⟨_, hname, _, hne⟩ := h.created name file hfile hnew
        exact hne (hname.trans hnil)
      · by_cases hsame : name = d.diskFilename
        · simp [hsame] at hfile
        · simp only [Function.update_of_ne hsame] at hfile
          exact hsame (h.created name file hfile hnew).2.1

theorem unlink (h : DownloadInv peers d) (hphase : d.phase = .tryAgain) :
    DownloadInv peers d.unlink := by
  have hcreated : ∀ name file, d.unlink.dir name = some file → file.created = true →
      d.unlink.phase.HasFile ∧ name = d.unlink.diskFilename ∧
        file.bytes = d.unlink.transfer.output ∧ name ≠ [] := by
    intro name file hfile hnew
    rw [h.unlink_created name file hfile] at hnew
    cases hnew
  unfold Download.unlink at *
  split
  · exact h
  · rename_i hname
    rw [if_neg hname] at hcreated
    exact { h with
      onDisk := by simp [hphase]
      created := hcreated }

theorem copy (h : DownloadInv peers d) (hphase : d.phase = .copying)
    (moved : Answer (List UInt8)) (written : Answer Nat) :
    DownloadInv peers (d.copy moved written) := by
  obtain ⟨hcounted, hfollows, hlimit, hsent⟩ := h.counted.pass moved written d.rate
  have hmoved := h.moved hphase hcounted hfollows
    (downloadPass moved written d.rate d.transfer).2.1 rfl
  obtain ⟨htry, hcopy, hcompare⟩ := hmoved
  rw [Download.copy]
  generalize downloadPass moved written d.rate d.transfer = pass at *
  obtain ⟨result, r, x⟩ := pass
  dsimp only at *
  cases result with
  | none => exact hcopy (hlimit rfl)
  | some result =>
      cases result with
      | endOfFile =>
          dsimp only
          split_ifs with hpos
          · apply hcompare (hsent rfl)
            intro hnil
            rw [hcounted.written, hnil] at hpos
            cases hpos
          · exact htry
      | tooLarge =>
          have hunlink := htry.unlink rfl
          simp only [Download.unlink] at hunlink ⊢
          split at hunlink <;> simp_all
      | readError => exact htry
      | writeError => exact htry
      | slowPeer => exact htry

theorem compare (h : DownloadInv peers d) (hphase : d.phase = .comparing)
    (md5Text : List UInt8 → List UInt8) : DownloadInv peers (d.compare md5Text) := by
  obtain ⟨hsent, hne⟩ := h.comparing hphase
  have hcounts := h.counts
  simp only [Counts, hphase] at hcounts
  have hcreated : ∀ name file, d.dir name = some file → file.created = true →
      name = d.diskFilename ∧ file.bytes = d.transfer.output ∧ name ≠ [] :=
    fun name file hfile hnew => (h.created name file hfile hnew).2
  have hstreams : ∀ state, Streams { d.transfer with
      task := { d.transfer.task with md5State := state } } := fun _ =>
    ⟨h.counted.streams.bounded, h.counted.streams.sent, h.counted.streams.unread⟩
  rw [Download.compare]
  dsimp only
  split_ifs
  · exact {
      counted := ⟨hstreams _, h.counted.type, h.counted.written⟩
      nothing := by simp
      onDisk := by simp
      created := fun name file hfile hnew => ⟨trivial, hcreated name file hfile hnew⟩
      size := h.size
      copying := nofun
      comparing := nofun
      counts := by
        have hpos := List.length_pos_iff.mpr hcounts.2
        simp only [Counts]
        omega
      digests := trivial }
  · exact {
      counted := ⟨hstreams _, h.counted.type, h.counted.written⟩
      nothing := by simp
      onDisk := by simp
      created := fun name file hfile hnew => ⟨trivial, hcreated name file hfile hnew⟩
      size := h.size
      copying := nofun
      comparing := nofun
      counts := hcounts
      digests := by
        simp [Digests, md5Padding, ← hsent, hne] }

theorem retry (h : DownloadInv peers d) (hphase : d.phase = .tryAgain) :
    DownloadInv peers d.retry := by
  have hcounts := h.counts
  have hdigests := h.digests
  simp only [Counts, Digests, hphase] at hcounts hdigests
  have hkeep : d.unlink.attempts = d.attempts ∧ d.unlink.peerList = d.peerList := by
    unfold Download.unlink
    split <;> simp
  exact {
    counted := ⟨Streams.start _, h.counted.type, rfl⟩
    nothing := fun _ => ⟨rfl, rfl⟩
    onDisk := by simp [Download.retry]
    created := by
      intro name file hfile hnew
      rw [h.unlink_created name file hfile] at hnew
      cases hnew
    size := Nat.zero_le _
    copying := nofun
    comparing := nofun
    counts := by
      have hpos := List.length_pos_iff.mpr hcounts.2
      simp only [Counts, Download.retry, List.length_tail, hkeep]
      omega
    digests := by
      refine ⟨d.transfer.task.md5State, ?_, ?_⟩
      · simp [Download.retry, Transfer.start, Task.emptied]
      · simpa [Download.retry] using hdigests }

theorem step (h : DownloadInv peers d) {md5Text : List UInt8 → List UInt8}
    {event : DownloadEvent} (hstep : d.step md5Text event = some d') :
    DownloadInv peers d' := by
  unfold Download.step at hstep
  split at hstep
  · rename_i hphase
    exact Option.some.inj hstep ▸ h.enter hphase _
  · rename_i hphase
    exact Option.some.inj hstep ▸ h.openFile hphase _
  · rename_i hphase
    exact Option.some.inj hstep ▸ h.copy hphase _ _
  · rename_i hphase
    exact Option.some.inj hstep ▸ h.compare hphase _
  · rename_i hphase
    exact Option.some.inj hstep ▸ h.retry hphase
  · cases hstep

theorem of_run {md5Text : List UInt8 → List UInt8} {events : List DownloadEvent}
    {d₀ : Download} (hfresh : d₀.Fresh)
    (hrun : runEvents (Download.step md5Text) events d₀ = some d) :
    DownloadInv d₀.peerList.length d :=
  (Reaches.of_runEvents events .start hrun).invariant (of_fresh hfresh)
    fun _ _ _ hinv _ hstep => hinv.step hstep

end DownloadInv

/-! ## What is digested -/

/-- The digest is that of the file on disk. -/
def Download.DigestCovers (d : Download) : Prop :=
  d.dir d.diskFilename = some ⟨d.transfer.task.md5State, true⟩

/-- When the checksums are compared, the digest is that of the file exactly if
no earlier peer has sent a byte; then the right contents are accepted. -/
theorem digestCovers_iff (md5Text : List UInt8 → List UInt8)
    (events : List DownloadEvent) (d₀ d : Download) (hfresh : d₀.Fresh)
    (hrun : runEvents (Download.step md5Text) events d₀ = some d)
    (hphase : d.phase = .comparing) :
    (d.DigestCovers ↔ d.earlier = []) ∧
      (d.earlier = [] → ∀ file, d.dir d.diskFilename = some file →
        ((d.compare md5Text).phase = .ended .accepted ↔
          d.checksum = md5Text file.bytes)) := by
  have hinv := DownloadInv.of_run hfresh hrun
  obtain ⟨hdisk, _⟩ := hinv.onDisk (.inr hphase)
  obtain ⟨hsent, _⟩ := hinv.comparing hphase
  have hdigests := hinv.digests
  simp only [Digests, hphase] at hdigests
  obtain ⟨bytes, hstate, hearlier⟩ := hdigests
  constructor
  · rw [Download.DigestCovers, hdisk, hstate, hsent]
    simp [hearlier]
  · intro hnone file hfile
    rw [hdisk, Option.some.injEq] at hfile
    rw [hearlier.mpr hnone, List.nil_append, ← hsent] at hstate
    rw [← hfile, Download.compare, hstate]
    dsimp only
    split_ifs with hsum
    · exact iff_of_true rfl hsum
    · exact iff_of_false nofun hsum

/-- A download of the file `a` from two peers. -/
def twoPeers (checksum : List UInt8) : Download where
  filename := [97]
  checksum := checksum
  listen := ⟨0, 0⟩
  peerList := [⟨1, 1⟩, ⟨2, 2⟩]
  transfer := .start (taskNew .download fun _ => 0)
  dir _ := none

theorem twoPeers_fresh (checksum : List UInt8) : (twoPeers checksum).Fresh where
  phase := rfl
  transfer := ⟨_, rfl⟩
  diskFilename := rfl
  dir := nofun
  attempts := rfl
  earlier := rfl

/-- One peer sends the byte 1 and closes the connection. -/
def oneByte : List DownloadEvent :=
  [.enter true, .openFile false, .copy (.moved [1]) (.moved 1), .copy (.moved []) .again]

theorem digestCovers_iff_oneByte : ∃ d, runEvents (Download.step id) oneByte
    (twoPeers [1]) = some d ∧ d.phase = .comparing ∧ d.DigestCovers := by
  have hphase : (runEvents (Download.step id) oneByte (twoPeers [1])).map (·.phase) =
      some .comparing := rfl
  obtain ⟨d, hrun, hcomparing⟩ := Option.map_eq_some_iff.mp hphase
  have hearlier : (runEvents (Download.step id) oneByte (twoPeers [1])).map (·.earlier) =
      some [] := rfl
  rw [hrun] at hearlier
  exact ⟨d, hrun, hcomparing, (digestCovers_iff id oneByte _ d (twoPeers_fresh [1]) hrun
    hcomparing).1.mpr (Option.some.inj hearlier)⟩

/-- The first peer breaks off behind the byte, the second sends the whole file. -/
def brokenOff : List DownloadEvent :=
  [.enter true, .openFile false, .copy (.moved [1]) (.moved 1), .copy .failed .again,
    .retry] ++ oneByte

/-- The file of the second peer has the right digest and is not accepted. -/
theorem brokenOff_not_covered :
    ∃ d, runEvents (Download.step id) brokenOff (twoPeers [1]) = some d ∧
      d.phase = .comparing ∧ d.dir d.diskFilename = some ⟨[1], true⟩ ∧
      d.checksum = id [1] ∧ d.transfer.task.md5State = [1, 1] ∧ ¬ d.DigestCovers ∧
      (d.compare id).phase = .tryAgain := by
  refine ⟨_, rfl, rfl, rfl, rfl, rfl, ?_, rfl⟩
  intro hcovers
  cases (hcovers : some (DiskFile.mk [1] true) = some ⟨[1, 1], true⟩)

end Cs111Labs.Peer
