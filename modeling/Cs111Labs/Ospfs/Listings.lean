import Cs111Labs.Ospfs.Histories
import Cs111Labs.Ospfs.Readdir

/-!
# Listing a directory while it changes

A program reads a directory in several calls of `readdir`, and the other calls
of the kernel come between them.
-/

namespace Cs111Labs.Ospfs

open Foundation Memory

variable {lossless : Prop} {g : Geometry} {m m' first : Memory} {d parent i j ino src : Nat}
  {name : Name} {call : Call}

/-! ## Types and directories -/

theorem Made.typed {initInode : Memory → Nat → Memory} {newInode : Bool}
    {r : Option Errno × Memory} (hm : Made lossless g d name initInode newInode m r)
    (h : Sound lossless g m) (hd : IsDir g m d) (hzero : 0 ∉ name)
    (hinit : r.2 ≠ m → Inits lossless initInode)
    (hftype : ∀ m₁ j, oiFtype (initInode m₁ (inodeAt j)) (inodeAt j) ≤ ftypeSymlink)
    (htyped : Typed g m) : Typed g r.2 := by
  by_cases hsame : r.2 = m
  · rwa [hsame]
  · rcases hm with ⟨heq, -⟩ | ⟨-, hresized, -⟩ | ⟨k, ino, -, hlength, hcreated⟩
    · exact absurd heq hsame
    · intro j hj
      exact (hresized.field h.stored hj (by decide) (by decide)).trans_le (htyped j hj)
    · obtain ⟨m₁, hstages⟩ := hcreated.stages h hd (hinit hsame) hlength hzero
      intro j hj
      by_cases hji : j = ino
      · subst hji
        exact (hstages.newField hd (by decide)).trans_le (hftype m₁ j)
      · have hfield := hstages.field h hd hj hji (n := 4) (by decide) (by decide)
        exact hfield.trans_le (htyped j hj)

theorem Made.isDir_iff {initInode : Memory → Nat → Memory} {newInode : Bool}
    {r : Option Errno × Memory} (hm : Made lossless g d name initInode newInode m r)
    (h : Sound lossless g m) (hd : IsDir g m d) (hzero : 0 ∉ name)
    (hinit : r.2 ≠ m → Inits lossless initInode) : IsDir g r.2 j ↔ IsDir g m j := by
  by_cases hsame : r.2 = m
  · rw [hsame]
  · rcases hm with ⟨heq, -⟩ | ⟨-, hresized, -⟩ | ⟨k, ino, -, hlength, hcreated⟩
    · exact absurd heq hsame
    · exact isDir_congr (fun j hj => hresized.field h.stored hj (by decide) (by decide))
        fun j hj => hresized.field h.stored hj (by decide) (by decide)
    · obtain ⟨m₁, hstages⟩ := hcreated.stages h hd (hinit hsame) hlength hzero
      exact hstages.isDir_iff h hd (hinit hsame)

/-- Every call keeps the types, and no call makes or removes a directory. -/
theorem Sound.typed_exec (h : Sound lossless g m) (htyped : Typed g m)
    (hp : call.Promised g m) (hserves : call.Serves lossless g m) :
    Typed g (call.exec m) ∧ (IsDir g (call.exec m) j ↔ IsDir g m j) := by
  cases call with
  | create dir name mode newInode =>
      obtain ⟨hd, hzero⟩ := hp
      have hmade := ospfsCreate_made h hd hserves
      have hinit := initReg_inits lossless mode
      refine ⟨hmade.typed h hd hzero (fun _ => hinit) (fun m₁ j => ?_) htyped,
        hmade.isDir_iff h hd hzero fun _ => hinit⟩
      rw [(initReg_fields m₁ (inodeAt j) mode).2.1]
      decide
  | symlink dir name symname newInode =>
      obtain ⟨hd, hzero, -⟩ := hp
      have hmade := (ospfsSymlink_made h hd hserves).1
      have hinit := initSymlink_inits_of_ne h hd hserves
      refine ⟨hmade.typed h hd hzero hinit (fun m₁ j => ?_) htyped,
        hmade.isDir_iff h hd hzero hinit⟩
      rw [(initSymlink_fields m₁ (inodeAt j)).2.1]
  | link src dir name =>
      obtain ⟨hd, -, -, hsrc, -, hdir⟩ := hp
      rcases ospfsLink_cases name h hd hsrc (fun hlength habsent hfull =>
          (hserves dir _ (if_pos ⟨hlength, habsent, hfull⟩)).2) with
        ⟨heq, -⟩ | ⟨heq, -⟩ | ⟨m₁, heq, -, hresized, -⟩ |
          ⟨k, m₁, m₂, m₃, heq, hlength, hlinked⟩ <;> simp only [Call.exec, heq]
      · exact ⟨htyped, trivial⟩
      · exact ⟨htyped, trivial⟩
      · refine ⟨fun j hj => ?_, isDir_congr
          (fun j hj => hresized.field h.stored hj (by decide) (by decide))
          fun j hj => hresized.field h.stored hj (by decide) (by decide)⟩
        exact (hresized.field h.stored hj (by decide) (by decide)).trans_le (htyped j hj)
      · refine ⟨fun j hj => ?_, hlinked.isDir_iff h hd hlength hdir⟩
        rw [hlinked.ftype h hd hlength hj]
        exact htyped j hj
  | unlink dir name ino =>
      obtain ⟨hd, hino, hdir, hnamed⟩ := hp
      rcases ospfsUnlink_cases h hd hino hnamed with
        ⟨heq, -⟩ | ⟨k, m₂, m₃, m₄, heq, hunlinked⟩ <;> simp only [Call.exec, heq]
      · exact ⟨htyped, trivial⟩
      · have hlast := hunlinked.lastStep_of_serves h hd hino hdir hserves
        refine ⟨fun j hj => ?_, hunlinked.final_isDir_iff h hd hino hdir hlast⟩
        rw [hunlinked.final_ftype h hd hino hdir hlast hj]
        exact htyped j hj
  | write ino append buffer count fPos =>
      have hfield := fun {j n} (hj : j < g.ninodes) (hn : 4 ≤ n) (hn' : n ≤ 12) =>
        ospfsWrite_field h hp hserves hj hn hn'
      refine ⟨fun j hj => ?_, isDir_congr (fun j hj => hfield hj (by decide) (by decide))
        fun j hj => hfield hj (by decide) (by decide)⟩
      exact (hfield hj (by decide) (by decide)).trans_le (htyped j hj)
  | notifyChange ino attr setattr =>
      have hfield := fun {j n} (hj : j < g.ninodes) (hn : n = 4 ∨ n = 8) =>
        ospfsNotifyChange_field h hp hserves hj hn
      refine ⟨fun j hj => ?_, isDir_congr (fun j hj => hfield hj (.inr rfl))
        fun j hj => hfield hj (.inl rfl)⟩
      exact (hfield hj (.inl rfl)).trans_le (htyped j hj)

/-! ## Runs -/

structure Listing where
  disk : Memory
  fPos : Nat
  reports : List Report
  ended : Bool
  /-- The entries that the calls of `readdir` had room for. -/
  offered : Nat
  /-- The disk at each call of `readdir`. -/
  seen : List Memory

inductive ListingEvent where
  | call (call : Call)
  | readdir (room : Nat)

def Listing.step (d parent : Nat) : ListingEvent → Listing → Option Listing
  | .call call, s => some { s with disk := call.exec s.disk }
  | .readdir room, s =>
      let (result, fPos, reports) := ospfsDirReaddir s.disk d parent s.fPos room
      some
        { disk := s.disk
          fPos := fPos
          reports := s.reports ++ reports
          ended := decide (result = .atEnd)
          offered := s.offered + room
          seen := s.disk :: s.seen }

/-- The program stops when `readdir` has returned 1. -/
def Listing.Allowed (g : Geometry) : ListingEvent → Listing → Prop
  | .call call, s => call.Promised g s.disk ∧ call.Moderate s.disk
  | .readdir _, s => s.ended = false

def Listing.Run (g : Geometry) (d parent : Nat) (first : Memory) (s : Listing) : Prop :=
  Reaches (Listing.step d parent) (Listing.Allowed g) ⟨first, 0, [], false, 0, []⟩ s

structure Listing.Inv (g : Geometry) (d parent : Nat) (s : Listing) : Prop where
  sound : Sound False g s.disk
  typed : Typed g s.disk
  isDir : IsDir g s.disk d
  scanned : Scanned Report.fPos (Lists g d parent) s.seen s.fPos s.reports
  atEnd : s.ended = true → ∃ last ∈ s.seen, ∀ r, Lists g d parent last r → r.fPos < s.fPos
  used : s.ended = false → s.reports.length = s.offered

theorem Listing.Inv.readdir {s s' : Listing} {room : Nat} (h : s.Inv g d parent)
    (hstep : Listing.step d parent (.readdir room) s = some s') (hgo : s.ended = false) :
    s'.Inv g d parent := by
  obtain ⟨result, heq, new, hreports, hcovers, hends⟩ :=
    ospfsDirReaddir_reads h.sound h.typed h.isDir parent s.fPos room
  rw [List.nil_append] at hreports
  rw [Listing.step, heq] at hstep
  obtain rfl := Option.some.inj hstep
  refine ⟨h.sound, h.typed, h.isDir, ?_, fun hended => ?_, fun hended => ?_⟩
  · rw [hreports]
    exact h.scanned.next hcovers
  · rcases hends with hend | hrefused
    · exact ⟨s.disk, List.mem_cons_self, hend.2.2⟩
    · rw [decide_eq_true_iff, hrefused.1] at hended
      cases hended
  · rcases hends with hend | hrefused
    · exact absurd hend.1 (of_decide_eq_false hended)
    · rw [List.length_append, h.used hgo, hreports, hrefused.2 rfl]

theorem Listing.Inv.exec {s s' : Listing} (h : s.Inv g d parent)
    (hp : call.Promised g s.disk) (hmoderate : call.Moderate s.disk)
    (hstep : Listing.step d parent (.call call) s = some s') : s'.Inv g d parent := by
  obtain rfl := Option.some.inj hstep
  have hserves := hmoderate.serves h.sound hp
  obtain ⟨htyped, hdir⟩ := h.sound.typed_exec (j := d) h.typed hp hserves
  exact ⟨h.sound.exec hp hserves, htyped, hdir.2 h.isDir, h.scanned, h.atEnd, h.used⟩

theorem Listing.Run.inv {s : Listing} (hfirst : Formatted g first) (hd : IsDir g first d)
    (hrun : s.Run g d parent first) : s.Inv g d parent := by
  refine hrun.invariant ⟨hfirst.sound False, hfirst.ftype_le, hd, .first, nofun, fun _ => rfl⟩ ?_
  intro event s s' h hallowed hstep
  cases event with
  | call call => exact h.exec hallowed.1 hallowed.2 hstep
  | readdir room => exact h.readdir hstep hallowed

/-- Whatever other calls come between the calls of `readdir`, no position is reported twice,
every report is of an entry that was there, no call stops before its room is used, and in
the end every entry that was there at each call has been reported. -/
theorem listing_complete {s : Listing} (hfirst : Formatted g first) (hd : IsDir g first d)
    (hrun : s.Run g d parent first) :
    s.reports.Pairwise (fun r r' => r.fPos < r'.fPos) ∧
      (∀ r ∈ s.reports, ∃ m ∈ s.seen, Lists g d parent m r) ∧
      (s.ended = false → s.reports.length = s.offered) ∧
      (s.ended = true → ∀ r, (∀ m ∈ s.seen, Lists g d parent m r) → r ∈ s.reports) := by
  have hinv := hrun.inv hfirst hd
  refine ⟨hinv.scanned.sorted, hinv.scanned.sound, hinv.used, fun hended r hr => ?_⟩
  obtain ⟨last, hlast, hbelow⟩ := hinv.atEnd hended
  exact hinv.scanned.complete r hr (hbelow r (hr last hlast))

theorem readdir_created :
    ospfsDirReaddir emptyDisk 1 1 0 1 = (.refused, 1, [⟨[46], 0, 1, .dir⟩]) ∧
    ospfsDirReaddir createdDisk 1 1 1 5 =
      (.atEnd, 3, [⟨[46, 46], 1, 1, .dir⟩, ⟨[97], 2, 2, .reg⟩]) := by
  decide +kernel

/-- A file is created between two calls. -/
theorem listing_complete_created : ∃ s : Listing, s.ended = true ∧
    s.reports = [⟨[46], 0, 1, .dir⟩, ⟨[46, 46], 1, 1, .dir⟩, ⟨[97], 2, 2, .reg⟩] ∧
    s.reports.Pairwise (fun r r' => r.fPos < r'.fPos) ∧
    (∀ r ∈ s.reports, ∃ m ∈ s.seen, Lists emptyGeometry 1 1 m r) ∧
    (s.ended = false → s.reports.length = s.offered) ∧
    (s.ended = true → ∀ r, (∀ m ∈ s.seen, Lists emptyGeometry 1 1 m r) → r ∈ s.reports) := by
  have hp : createCall.Promised emptyGeometry emptyDisk := ⟨by decide, by decide⟩
  have hfirst : Listing.step 1 1 (.readdir 1) ⟨emptyDisk, 0, [], false, 0, []⟩ =
      some ⟨emptyDisk, 1, [⟨[46], 0, 1, .dir⟩], false, 1, [emptyDisk]⟩ := by
    rw [Listing.step, readdir_created.1]
    rfl
  have hlast : Listing.step 1 1 (.readdir 5)
      ⟨createdDisk, 1, [⟨[46], 0, 1, .dir⟩], false, 1, [emptyDisk]⟩ =
      some ⟨createdDisk, 3, [⟨[46], 0, 1, .dir⟩, ⟨[46, 46], 1, 1, .dir⟩, ⟨[97], 2, 2, .reg⟩],
        true, 6, [createdDisk, emptyDisk]⟩ := by
    simp only [Listing.step, readdir_created.2]
    rfl
  have hrun : Listing.Run emptyGeometry 1 1 emptyDisk _ := Reaches.next .start (.readdir 1) rfl
    hfirst
  have hcreated := hrun.next (.call createCall) ⟨hp, createCall_moderate⟩ rfl
  exact ⟨_, rfl, rfl, listing_complete emptyDisk_formatted ((emptyDisk_isDir 1).2 rfl)
    (hcreated.next (.readdir 5) rfl hlast)⟩

end Cs111Labs.Ospfs
