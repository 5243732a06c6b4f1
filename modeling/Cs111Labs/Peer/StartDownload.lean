import Cs111Labs.Peer.Download
import Cs111Labs.Peer.RoundTrip

/-!
# The peers that the tracker names

`start_download` takes the data portion of the tracker's response apart, line by
line.  The tracker is trusted: an unexpected line ends the program.
-/

namespace Cs111Labs.Peer

open Foundation

structure PeerEntry where
  peerAlias : List UInt8
  addr : BitVec 32
  port : Int
  deriving DecidableEq, Repr

/-- What `start_download` sets in a new task. -/
structure DownloadTask where
  filename : List UInt8 := []
  peerList : List PeerEntry := []
  checksum : List UInt8 := []
  deriving DecidableEq, Repr

/-- `parse_peer`, or `none` if it reads outside of memory. -/
def parsePeer (memory : List UInt8) (len : Nat) : Option (Option PeerEntry) :=
  (vsnscanf memory len (ascii "PEER %s %I:%d")).map fun (ret, values) =>
    match values with
    | [.string peerAlias, .address addr, .integer port] =>
        if 0 ≤ ret ∧ 0 < port ∧ port ≤ 65535 then some ⟨peerAlias, addr, port⟩ else none
    | _ => none

inductive Adding where
  | added (peerList : List PeerEntry)
  | died
  | outside
  deriving DecidableEq, Repr

/-- The loop over the lines: `s1` is at the start of `data`, and `beyond` is what
follows the data portion in the buffer. -/
def addPeers (beyond data : List UInt8) (peerList : List PeerEntry) : Adding :=
  if newline ∈ data then
    match parsePeer (data ++ beyond) (data.idxOf newline) with
    | none => .outside
    | some none => .died
    | some (some p) => addPeers beyond (data.drop (data.idxOf newline + 1)) (p :: peerList)
  else if data = [] then .added peerList
  else .died
termination_by data.length
decreasing_by
  have hmem := List.length_pos_of_mem ‹newline ∈ data›
  rw [List.length_drop]
  omega

inductive StartResult where
  | returned (t : Option DownloadTask)
  /-- The call waits in `read`. -/
  | waiting
  | died
  | outside
  deriving DecidableEq, Repr

/-- The first digit of a success code. -/
def digitTwo : UInt8 := 50

/-- `MD5_TEXT_DIGEST_SIZE` -/
def md5TextDigestSize : Nat := 22

/-- The bytes of a buffer. -/
def Task.bytes (t : Task) : List UInt8 := (List.range taskbufsiz).map t.buf

/-- `MD5SUM`, and the checksum that the tracker sends. -/
def askChecksum (answers : List (Answer (List UInt8))) (tracker : Task) (t : DownloadTask) :
    StartResult :=
  match readTrackerResponse answers tracker with
  | .waiting _ => .waiting
  | .died => .died
  | .returned messagepos tracker _ =>
      if tracker.buf messagepos ≠ digitTwo then .returned (some t)
      else .returned (some { t with
        checksum := (tracker.bytes.take md5TextDigestSize).takeWhile (· ≠ 0) })

/-- `answers` is what the tracker's socket gives; `malloc` succeeds. -/
def startDownload (answers : List (Answer (List UInt8))) (tracker : Task)
    (filename : List UInt8) : StartResult :=
  match readTrackerResponse answers tracker with
  | .waiting _ => .waiting
  | .died => .died
  | .returned messagepos tracker answers =>
      if tracker.buf messagepos ≠ digitTwo then .returned none
      else if filenamesiz ≤ filename.length then .returned (some {})
      else
        match addPeers (tracker.bytes.drop messagepos) (tracker.bytes.take messagepos) [] with
        | .outside => .outside
        | .died => .died
        | .added peerList => askChecksum answers tracker { filename, peerList }

/-! ## One line -/

namespace PeerEntry

/-- A peer that the tracker can name. -/
structure Valid (p : PeerEntry) : Prop where
  alias_ne : p.peerAlias ≠ []
  alias_nul : (0 : UInt8) ∉ p.peerAlias
  port_pos : 1 ≤ p.port
  port_le : p.port ≤ 65535

def values (p : PeerEntry) : List Value := [.string p.peerAlias, .address p.addr, .integer p.port]

/-- The text of a line without its newline. -/
def text (p : PeerEntry) : List UInt8 :=
  ascii "PEER" ++ 32 :: (httpQuote p.peerAlias ++ 32 :: (inetNtoa p.addr ++ 58 :: printInt p.port))

/-- It is what `osp2p_writef` makes of the peer. -/
theorem command_eq (p : PeerEntry) :
    command (ascii "PEER %s %I:%d\n") p.values = some (p.text ++ [newline]) := by
  have hcommand : command (ascii "PEER %s %I:%d\n") p.values =
      some (ascii "PEER" ++ 32 :: (httpQuote p.peerAlias ++ 32 ::
        (inetNtoa p.addr ++ 58 :: (printInt p.port ++ [newline])))) := rfl
  rw [hcommand, text]
  simp

end PeerEntry

theorem ne_newline_of_not_isspace {c : UInt8} (h : isspace c = false) : c ≠ newline := by
  rintro rfl
  exact absurd h (by decide)

theorem newline_not_plain (c : UInt8) (h : isPlain c = true) : c ≠ newline :=
  ne_newline_of_not_isspace (isPlain_not_special c h).1

theorem newline_ne_hexDigit (c : UInt8) :
    hexDigit (c / 16) ≠ newline ∧ hexDigit (c &&& 15) ≠ newline := by
  obtain ⟨hhigh, hlow, -⟩ := xvalue_hexDigit c
  exact ⟨ne_newline_of_not_isspace (not_isspace_of_isxdigit _ hhigh),
    ne_newline_of_not_isspace (not_isspace_of_isxdigit _ hlow)⟩

theorem newline_not_mem_httpQuote (s : List UInt8) : newline ∉ httpQuote s := by
  induction s with
  | nil => exact List.not_mem_nil
  | cons c s ih =>
      obtain ⟨hhigh, hlow⟩ := newline_ne_hexDigit c
      rw [httpQuote]
      split_ifs with hzero hplain
      · exact List.not_mem_nil
      · simp [ih, (newline_not_plain c hplain).symm]
      · simp [ih, hhigh.symm, hlow.symm, show newline ≠ percent by decide]

theorem newline_not_mem_digitBytes {ds : List Nat} (hds : ∀ d ∈ ds, d < 10) :
    newline ∉ digitBytes ds := by
  intro hmem
  obtain ⟨d, hd, heq⟩ := List.mem_map.1 hmem
  have hlt := hds d hd
  interval_cases d <;> exact absurd heq (by decide)

theorem newline_not_mem_decimal (n : Nat) : newline ∉ decimal n :=
  newline_not_mem_digitBytes fun d hd => digits_lt n d (List.mem_reverse.1 hd)

theorem newline_not_mem_inetNtoa (a : BitVec 32) : newline ∉ inetNtoa a := by
  simp [inetNtoa, newline_not_mem_decimal, show newline ≠ dot by decide]

namespace PeerEntry

variable {p : PeerEntry}

theorem newline_not_mem_text (h : p.Valid) : newline ∉ p.text := by
  obtain ⟨n, hn⟩ := Int.eq_ofNat_of_zero_le (show 0 ≤ p.port by have := h.port_pos; omega)
  have hport : newline ∉ printInt p.port := by
    rw [hn]
    exact newline_not_mem_decimal n
  simp [text, newline_not_mem_httpQuote, newline_not_mem_inetNtoa, hport,
    show newline ∉ ascii "PEER" by decide, show newline ≠ 32 by decide,
    show newline ≠ 58 by decide]

/-- A line is scanned up to its newline, which is not part of it. -/
theorem parsePeer_text (h : p.Valid) (beyond : List UInt8) :
    parsePeer (p.text ++ newline :: beyond) p.text.length = some (some p) := by
  obtain ⟨s, addr, port⟩ := p
  obtain ⟨hne, hs, hlow, hhigh⟩ := h
  dsimp only at hne hs hlow hhigh
  obtain ⟨n, rfl⟩ := Int.eq_ofNat_of_zero_le (show 0 ≤ port by omega)
  have hquote := httpQuote_visible hs hne
  have haddress := inetNtoa_visible addr
  have hsmall : (n : Int) + 10 ≤ intMax := by
    unfold intMax
    omega
  have htext : (PeerEntry.mk s addr n).text = ascii "PEER" ++ 32 :: (httpQuote s ++
      32 :: (inetNtoa addr ++ 58 :: decimal n)) := rfl
  have hscan : vsnscanf ((PeerEntry.mk s addr n).text ++ newline :: beyond)
      (PeerEntry.mk s addr n).text.length (ascii "PEER %s %I:%d") =
        some (0, [.string s, .address addr, .integer n]) := by
    have hlength : (PeerEntry.mk s addr n).text.length = (ascii "PEER").length +
        (httpQuote s).length + (inetNtoa addr).length + (decimal n).length + 3 := by
      rw [htext]
      simp only [List.length_append, List.length_cons]
      omega
    rw [hlength, htext, vsnscanf]
    simp only [List.append_assoc, List.cons_append]
    rw [show ascii "PEER %s %I:%d" = ascii "PEER" ++ 32 :: percent :: letterS :: 32 ::
      percent :: letterI :: 58 :: percent :: [letterD] from rfl,
      vsnscanf_literals (literal_of_decide (by decide)) (by omega),
      vsnscanf_space rfl (hquote.append _) (by omega),
      vsnscanf_string hs (by decide) (by omega),
      vsnscanf_space rfl (haddress.append _) (by omega),
      vsnscanf_address addr (by decide) (by omega),
      vsnscanf_literal (by decide) (by decide) (by omega),
      vsnscanf_integer hsmall (by decide) (by omega), vsnscanfFrom]
    rfl
  have hport : (0 : Int) ≤ 0 ∧ (0 : Int) < n ∧ (n : Int) ≤ 65535 :=
    ⟨le_rfl, by omega, hhigh⟩
  rw [parsePeer, hscan, Option.map_some]
  dsimp only
  rw [if_pos hport]

end PeerEntry

/-! ## All lines -/

/-- The lines of the peers. -/
def peerLines (peers : List PeerEntry) : List UInt8 :=
  peers.flatMap fun p => p.text ++ [newline]

theorem addPeers_peerLines (beyond : List UInt8) {peers : List PeerEntry}
    (hpeers : ∀ p ∈ peers, p.Valid) (peerList : List PeerEntry) :
    addPeers beyond (peerLines peers) peerList = .added (peers.reverse ++ peerList) := by
  induction peers generalizing peerList with
  | nil =>
      rw [addPeers]
      simp [peerLines]
  | cons p peers ih =>
      have hvalid := hpeers p (.head _)
      have htext := PeerEntry.newline_not_mem_text hvalid
      have hlines : peerLines (p :: peers) = p.text ++ newline :: peerLines peers := by
        simp [peerLines]
      have hindex : (p.text ++ newline :: peerLines peers).idxOf newline = p.text.length := by
        rw [List.idxOf_append_of_notMem htext]
        simp
      rw [addPeers, hlines, if_pos (by simp), hindex, List.append_assoc, List.cons_append,
        PeerEntry.parsePeer_text hvalid]
      dsimp only
      rw [← List.drop_drop, List.drop_left, List.drop_succ_cons, List.drop_zero,
        ih fun q hq => hpeers q (.tail _ hq)]
      simp

/-! ## The whole call -/

theorem askChecksum_peerList {answers : List (Answer (List UInt8))} {tracker : Task}
    {t t' : DownloadTask} (h : askChecksum answers tracker t = .returned (some t')) :
    t'.peerList = t.peerList := by
  unfold askChecksum at h
  split at h
  · cases h
  · cases h
  · split_ifs at h
    · rw [← Option.some.inj (StartResult.returned.inj h)]
    · rw [← Option.some.inj (StartResult.returned.inj h)]

/-- The first response is there: a success code behind the lines of these peers. -/
structure NamesPeers (messagepos : Nat) (tracker : Task) (peers : List PeerEntry) : Prop where
  valid : ∀ p ∈ peers, p.Valid
  fits : messagepos < taskbufsiz
  code : tracker.buf messagepos = digitTwo
  lines : (List.range messagepos).map tracker.buf = peerLines peers

/-- The call goes on to `MD5SUM` with this list, and a task that it returns has it. -/
def BuildsPeerList (result : StartResult) (answers : List (Answer (List UInt8)))
    (tracker : Task) (peerList : List PeerEntry) : Prop :=
  (∃ t, t.peerList = peerList ∧ result = askChecksum answers tracker t) ∧
    ∀ t, result = .returned (some t) → t.peerList = peerList

/-- Names that do not fit into `filename` are refused before the list is built. -/
theorem startDownload_buildsPeerList {answers rest : List (Answer (List UInt8))}
    {tracker tracker' : Task} {filename : List UInt8} {messagepos : Nat}
    {peers : List PeerEntry} (hname : filename.length < filenamesiz)
    (hread : readTrackerResponse answers tracker = .returned messagepos tracker' rest)
    (hnames : NamesPeers messagepos tracker' peers) :
    BuildsPeerList (startDownload answers tracker filename) rest tracker' peers.reverse := by
  have htake : tracker'.bytes.take messagepos = peerLines peers := by
    rw [← hnames.lines, Task.bytes, ← List.map_take, List.take_range,
      min_eq_left hnames.fits.le]
  have heq : startDownload answers tracker filename = askChecksum rest tracker'
      { filename := filename, peerList := peers.reverse, checksum := [] } := by
    rw [startDownload, hread]
    dsimp only
    rw [if_neg (not_not.2 hnames.code), if_neg (by omega), htake,
      addPeers_peerLines _ hnames.valid, List.append_nil]
  refine ⟨⟨_, rfl, heq⟩, fun t ht => ?_⟩
  rw [heq] at ht
  exact askChecksum_peerList ht

/-- `PEER a 1.2.3.4:80` -/
def onePeer : PeerEntry := ⟨[97], 16909060, 80⟩

theorem onePeer_valid : onePeer.Valid := ⟨by decide, by decide, by decide, by decide⟩

/-- The lines of one peer and a terminator line. -/
def onePeerAnswers : List (Answer (List UInt8)) :=
  [.moved (ascii "PEER a 1.2.3.4:80\n200 ok\n")]

theorem onePeer_names : ∃ messagepos tracker,
    readTrackerResponse onePeerAnswers (taskNew .tracker fun _ => 0) =
      .returned messagepos tracker [] ∧ NamesPeers messagepos tracker [onePeer] :=
  ⟨_, _, rfl, by simp [onePeer_valid], by decide, by decide, by decide⟩

theorem startDownload_buildsPeerList_one : ∃ tracker,
    BuildsPeerList (startDownload onePeerAnswers (taskNew .tracker fun _ => 0) [98]) []
      tracker [onePeer] := by
  obtain ⟨messagepos, tracker, hread, hnames⟩ := onePeer_names
  exact ⟨tracker, startDownload_buildsPeerList (by decide) hread hnames⟩

/-- The name of the file has 256 bytes. -/
theorem longName_not_buildsPeerList :
    ¬ ∀ (answers rest : List (Answer (List UInt8))) (tracker tracker' : Task)
      (filename : List UInt8) (messagepos : Nat) (peers : List PeerEntry),
      readTrackerResponse answers tracker = .returned messagepos tracker' rest →
        NamesPeers messagepos tracker' peers →
          BuildsPeerList (startDownload answers tracker filename) rest tracker'
            peers.reverse := by
  intro hall
  obtain ⟨messagepos, tracker, hread, hnames⟩ := onePeer_names
  have hbuilds := hall _ _ _ _ (List.replicate filenamesiz 97) _ _ hread hnames
  have hempty : startDownload onePeerAnswers (taskNew .tracker fun _ => 0)
      (List.replicate filenamesiz 97) = .returned (some {}) := by
    rw [startDownload, hread]
    dsimp only
    rw [if_neg (not_not.2 hnames.code), if_pos (by rw [List.length_replicate])]
  have hlist := hbuilds.2 {} hempty
  cases hlist

end Cs111Labs.Peer
