import Cs111Labs.Peer.DownloadRuns

/-!
# Files that were there before a download

`open` creates a file under a name that did not exist.  The name is remembered
before `open` is called, and the exit of a failed attempt unlinks it.
-/

namespace Cs111Labs.Peer

open Foundation

variable {d₀ d d' : Download} {event : DownloadEvent} {md5Text : List UInt8 → List UInt8}

/-- The files of the first directory are there with the same contents. -/
def KeepsFiles (d₀ d : Download) : Prop :=
  ∀ name file, d₀.dir name = some file → d.dir name = some file

/-- The name fits into `disk_filename`, and `open` does not fail with an error other
than `EEXIST` for a name that exists. -/
def OpensClean (event : DownloadEvent) (d : Download) : Prop :=
  ∀ i, d.phase = .opening i → (d.localName i).length < filenamesiz ∧
    (event = .openFile true → d.dir (d.localName i) = none)

/-- The remembered name is not one of the first directory. -/
structure Spares (d₀ d : Download) : Prop where
  files : KeepsFiles d₀ d
  copying : d.phase = .copying → d₀.dir d.diskFilename = none
  target : d.phase = .starting ∨ d.phase = .comparing ∨ d.phase = .tryAgain →
    d.diskFilename = [] ∨ d₀.dir d.diskFilename = none

theorem KeepsFiles.none_of_none (h : KeepsFiles d₀ d) {name : List UInt8}
    (hname : d.dir name = none) : d₀.dir name = none := by
  cases hfile : d₀.dir name with
  | none => rfl
  | some file =>
      rw [h name file hfile] at hname
      cases hname

theorem KeepsFiles.update (h : KeepsFiles d₀ d) {name : List UInt8} (file : Option DiskFile)
    (hname : d₀.dir name = none) (hdir : d'.dir = Function.update d.dir name file) :
    KeepsFiles d₀ d' := by
  intro other found hfound
  have hne : other ≠ name := by
    rintro rfl
    rw [hname] at hfound
    cases hfound
  rw [hdir, Function.update_of_ne hne]
  exact h other found hfound

theorem KeepsFiles.unlink (h : KeepsFiles d₀ d)
    (htarget : d.diskFilename = [] ∨ d₀.dir d.diskFilename = none) :
    KeepsFiles d₀ d.unlink := by
  unfold Download.unlink
  split_ifs with hempty
  · exact h
  · exact h.update none (htarget.resolve_left hempty) rfl

namespace Spares

theorem of_fresh (h : d₀.Fresh) : Spares d₀ d₀ where
  files _ _ hfile := hfile
  copying hphase := by
    rw [h.phase] at hphase
    cases hphase
  target _ := .inl h.diskFilename

theorem enter (h : Spares d₀ d) (hphase : d.phase = .starting) (connects : Bool) :
    Spares d₀ (d.enter connects) := by
  have htarget := h.target (.inl hphase)
  unfold Download.enter
  split
  · exact ⟨h.files, nofun, fun _ => htarget⟩
  · dsimp only
    split_ifs
    · exact ⟨h.files, nofun, fun _ => htarget⟩
    · exact ⟨h.files, nofun, fun _ => htarget⟩
    · exact ⟨h.files, nofun, fun _ => htarget⟩

theorem openFile (h : Spares d₀ d) {i : Nat} {fails : Bool}
    (hclean : OpensClean (.openFile fails) d) (hphase : d.phase = .opening i) :
    Spares d₀ (d.openFile i fails) := by
  obtain ⟨hfits, hfails⟩ := hclean i hphase
  unfold Download.openFile
  rw [if_neg (by omega)]
  dsimp only
  by_cases herror : fails = true ∨ d.localName i = []
  · rw [if_pos herror]
    refine ⟨h.files, nofun, fun _ => ?_⟩
    rcases herror with rfl | hempty
    · exact .inr (h.files.none_of_none (hfails rfl))
    · exact .inl hempty
  · rw [if_neg herror]
    by_cases hexists : (d.dir (d.localName i)).isSome = true
    · -- `EEXIST`: the next name is tried
      rw [if_pos hexists]
      split_ifs
      · exact ⟨h.files, nofun, nofun⟩
      · exact ⟨h.files, nofun, nofun⟩
    · rw [if_neg hexists]
      have hnone : d.dir (d.localName i) = none := by simpa using hexists
      have hnew := h.files.none_of_none hnone
      exact ⟨h.files.update _ hnew rfl, fun _ => hnew, nofun⟩

theorem copy (h : Spares d₀ d) (hphase : d.phase = .copying)
    (moved : Answer (List UInt8)) (written : Answer Nat) :
    Spares d₀ (d.copy moved written) := by
  have hname := h.copying hphase
  rcases hpass : downloadPass moved written d.rate d.transfer with ⟨result, r, x⟩
  have hkeeps : KeepsFiles d₀ (d.appendFile (x.output.drop d.transfer.output.length)) :=
    h.files.update _ hname rfl
  unfold Download.copy
  rw [hpass]
  dsimp only
  split
  · exact ⟨hkeeps, fun _ => hname, fun _ => .inr hname⟩
  · split_ifs
    · exact ⟨hkeeps, nofun, fun _ => .inr hname⟩
    · exact ⟨hkeeps, nofun, fun _ => .inr hname⟩
  · refine ⟨?_, nofun, fun _ => ?_⟩
    · refine KeepsFiles.unlink (d := { d.appendFile _ with
        rate := r, transfer := x, passes := d.passes + 1 }) hkeeps (.inr hname)
    · right
      unfold Download.unlink
      split_ifs <;> exact hname
  · exact ⟨hkeeps, nofun, fun _ => .inr hname⟩

theorem compare (h : Spares d₀ d) (hphase : d.phase = .comparing) :
    Spares d₀ (d.compare md5Text) := by
  have htarget := h.target (.inr (.inl hphase))
  unfold Download.compare
  dsimp only
  split_ifs
  · exact ⟨h.files, nofun, fun _ => htarget⟩
  · exact ⟨h.files, nofun, fun _ => htarget⟩

theorem retry (h : Spares d₀ d) (hphase : d.phase = .tryAgain) : Spares d₀ d.retry where
  files := h.files.unlink (h.target (.inr (.inr hphase)))
  copying := nofun
  target _ := .inl rfl

theorem step (h : Spares d₀ d) (hclean : OpensClean event d)
    (hstep : d.step md5Text event = some d') : Spares d₀ d' := by
  unfold Download.step at hstep
  split at hstep
  · rename_i connects hphase
    obtain rfl := Option.some.inj hstep
    exact h.enter hphase connects
  · rename_i fails i hphase
    obtain rfl := Option.some.inj hstep
    exact h.openFile hclean hphase
  · rename_i moved written hphase
    obtain rfl := Option.some.inj hstep
    exact h.copy hphase moved written
  · rename_i hphase
    obtain rfl := Option.some.inj hstep
    exact h.compare hphase
  · rename_i hphase
    obtain rfl := Option.some.inj hstep
    exact h.retry hphase
  · cases hstep

end Spares

theorem keepsFiles_of_reaches (hfresh : d₀.Fresh)
    (hrun : Reaches (Download.step md5Text) OpensClean d₀ d) : KeepsFiles d₀ d := by
  have hspares : Spares d₀ d := hrun.invariant (.of_fresh hfresh)
    fun event s s' h hclean hstep => h.step hclean hstep
  exact hspares.files

/-- The file `a` exists with the contents `b`. -/
def existing : Download := { twoPeers [1] with
  dir := fun name => if name = [97] then some ⟨[98], false⟩ else none }

theorem existing_fresh : existing.Fresh where
  phase := rfl
  transfer := ⟨_, rfl⟩
  diskFilename := rfl
  dir name file hfile := by
    change (if name = [97] then some (DiskFile.mk [98] false) else none) = some file at hfile
    split_ifs at hfile
    rw [← Option.some.inj hfile]
  attempts := rfl
  earlier := rfl

theorem keepsFiles_of_reaches_enter :
    ∃ d, existing.step id (.enter true) = some d ∧ KeepsFiles existing d := by
  have hrun : Reaches (Download.step id) OpensClean existing (existing.enter true) :=
    .next .start (.enter true) (fun _ hphase => nomatch hphase) rfl
  exact ⟨_, rfl, keepsFiles_of_reaches existing_fresh hrun⟩

/-- `open` finds no free descriptor, and the existing file is unlinked. -/
theorem outOfDescriptors_not_keepsFiles :
    ¬ ∀ (d₀ d : Download), d₀.Fresh →
      Reaches (Download.step id) (fun _ _ => True) d₀ d → KeepsFiles d₀ d := by
  intro hall
  obtain ⟨d, hrun, hgone⟩ : ∃ d, runEvents (Download.step id)
      [.enter true, .openFile true, .retry] existing = some d ∧ d.dir [97] = none :=
    ⟨_, rfl, rfl⟩
  have hkept := hall existing d existing_fresh (Reaches.of_runEvents _ .start hrun)
    [97] ⟨[98], false⟩ rfl
  rw [hgone] at hkept
  cases hkept

end Cs111Labs.Peer
