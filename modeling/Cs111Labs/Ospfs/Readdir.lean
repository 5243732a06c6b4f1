import Cs111Labs.Foundation.ResumedScan
import Cs111Labs.Ospfs.Entries

/-!
# Reading a directory

`ospfs_dir_readdir` goes on at `f_pos`, an entry of the directory plus two.
`room` is the number of entries that `filldir` accepts in the call; it refuses
the next one.
-/

namespace Cs111Labs.Ospfs

open Foundation Memory

variable {lossless : Prop} {g : Geometry} {m : Memory} {own : Nat → Prop} {d k ino : Nat}
  {name : Name}

inductive DirentType where
  | reg
  | dir
  | lnk
  deriving DecidableEq, Repr

/-- What `filldir` is given. -/
structure Report where
  name : Name
  fPos : Nat
  ino : Nat
  type : DirentType
  deriving DecidableEq, Repr

inductive ReaddirReturn where
  /-- 1 -/
  | atEnd
  /-- 0 -/
  | refused
  /-- -1, without storing `f_pos` -/
  | unknownType
  | oops
  deriving DecidableEq, Repr

def direntType (ftype : Nat) : Option DirentType :=
  if ftype = ftypeReg then some .reg
  else if ftype = ftypeDir then some .dir
  else if ftype = ftypeSymlink then some .lnk
  else none

/-- The variables of a call: `ok` stands for `ok_so_far >= 0`. -/
structure Filling where
  fPos : Nat
  room : Nat
  ok : Bool
  reports : List Report

/-- `filldir` is called, and `f_pos` advances unless it refuses. -/
def Filling.offer (s : Filling) (report : Report) : Filling :=
  match s.room with
  | 0 => { s with ok := false }
  | room + 1 => { fPos := s.fPos + 1, room := room, ok := s.ok, reports := s.reports ++ [report] }

/-- The loop over the actual entries. -/
def readdirLoop (m : Memory) (dirOi : Nat) (s : Filling) : ReaddirReturn × Filling :=
  if s.ok = true ∧ 2 ≤ s.fPos then
    if 128 * (s.fPos - 2) ≥ oiSize m dirOi then (.atEnd, s)
    else
      let od := ospfsInodeData m dirOi (128 * (s.fPos - 2))
      if odIno m od = 0 then readdirLoop m dirOi { s with fPos := s.fPos + 1 }
      else
        match ospfsInode m (odIno m od) with
        | none => (.oops, s)
        | some entryOi =>
            match direntType (oiFtype m entryOi) with
            | none => (.unknownType, s)
            | some type => readdirLoop m dirOi (s.offer ⟨odName m od, s.fPos, odIno m od, type⟩)
  else (.refused, s)
termination_by if s.ok then oiSize m dirOi - 128 * (s.fPos - 2) else 0
decreasing_by
  · rename_i hgo hmore _
    simp only [hgo.1, if_true]
    omega
  · rename_i hgo hmore _
    unfold Filling.offer
    split <;> simp [hgo.1] <;> omega

/-- The two special entries, at 0 and 1. -/
def Filling.offerDots (dir parent : Nat) (s : Filling) : Filling :=
  let s := if s.fPos = 0 then s.offer ⟨[46], s.fPos, dir, .dir⟩ else s
  if s.ok = true ∧ s.fPos = 1 then s.offer ⟨[46, 46], s.fPos, parent, .dir⟩ else s

/-- The return value, `f_pos` after the call, and the calls of `filldir`. -/
def ospfsDirReaddir (m : Memory) (dir parent fPos room : Nat) :
    ReaddirReturn × Nat × List Report :=
  match ospfsInode m dir with
  | none => (.oops, fPos, [])
  | some dirOi =>
      match readdirLoop m dirOi (Filling.offerDots dir parent ⟨fPos, room, true, []⟩) with
      | (.unknownType, s) => (.unknownType, fPos, s.reports)
      | (r, s) => (r, s.fPos, s.reports)

/-! ## What a directory shows -/

/-- All inodes have one of the three types. -/
def Typed (g : Geometry) (m : Memory) : Prop := ∀ i < g.ninodes, oiFtype m (inodeAt i) ≤ ftypeSymlink

/-- The two special entries and the entries of the directory. -/
def Lists (g : Geometry) (d parent : Nat) (m : Memory) (r : Report) : Prop :=
  r = ⟨[46], 0, d, .dir⟩ ∨ r = ⟨[46, 46], 1, parent, .dir⟩ ∨
    ∃ k, r.fPos = k + 2 ∧ r.ino ≠ 0 ∧ slot g m (d, k) = some (r.ino, r.name) ∧
      direntType (oiFtype m (inodeAt r.ino)) = some r.type

variable {parent : Nat} {r : Report}

theorem Lists.entry (h : Lists g d parent m r) (hpos : r.fPos = k + 2) : r.ino ≠ 0 ∧
    slot g m (d, k) = some (r.ino, r.name) ∧
    direntType (oiFtype m (inodeAt r.ino)) = some r.type := by
  rcases h with rfl | rfl | ⟨j, hj, hentry⟩
  · exact absurd hpos (by simp)
  · exact absurd hpos (by simp)
  · obtain rfl : j = k := by omega
    exact hentry

/-- A position has at most one entry. -/
theorem Lists.eq_of_fPos {r' : Report} (h : Lists g d parent m r) (h' : Lists g d parent m r')
    (hpos : r.fPos = r'.fPos) : r = r' := by
  rcases h with rfl | rfl | ⟨k, hk, -, hslot, htype⟩
  · rcases h' with rfl | rfl | ⟨k, hk, -⟩
    · rfl
    · exact absurd hpos (by simp)
    · exact absurd (hpos.trans hk) (by simp)
  · rcases h' with rfl | rfl | ⟨k, hk, -⟩
    · exact absurd hpos (by simp)
    · rfl
    · exact absurd (hpos.trans hk) (by simp)
  · obtain ⟨-, hslot', htype'⟩ := h'.entry (hpos.symm.trans hk)
    rw [hslot, Option.some.injEq, Prod.mk.injEq] at hslot'
    rw [← hslot'.1, htype, Option.some.injEq] at htype'
    cases r
    cases r'
    simp_all

theorem direntType_isSome {ftype : Nat} (h : ftype ≤ ftypeSymlink) :
    ∃ type, direntType ftype = some type := by
  unfold direntType
  unfold ftypeSymlink at *
  interval_cases ftype
  · exact ⟨.reg, rfl⟩
  · exact ⟨.dir, rfl⟩
  · exact ⟨.lnk, rfl⟩

/-! ## One call -/

/-- What a call does from a position on. -/
def Reads (g : Geometry) (d parent : Nat) (m : Memory) (s : Filling)
    (result : ReaddirReturn × Filling) : Prop :=
  ∃ new, result.2.reports = s.reports ++ new ∧
    Covers Report.fPos (Lists g d parent) m s.fPos result.2.fPos new ∧
    (result.1 = .atEnd ∧ 2 ≤ result.2.fPos ∧
        (∀ r, Lists g d parent m r → r.fPos < result.2.fPos) ∨
      result.1 = .refused ∧ (s.ok = true → new.length = s.room))

namespace Reads

variable {s : Filling} {result : ReaddirReturn × Filling} {report : Report}

/-- `filldir` is offered the next entry. -/
theorem offer (hreport : Lists g d parent m report) (hpos : report.fPos = s.fPos)
    (hrefuse : s.room = 0 → result = (.refused, s.offer report))
    (h : Reads g d parent m (s.offer report) result) : Reads g d parent m s result := by
  cases hroom : s.room with
  | zero =>
      have hoffer : s.offer report = { s with ok := false } := by
        rw [Filling.offer, hroom]
      rw [hrefuse hroom, hoffer]
      exact ⟨[], (List.append_nil _).symm, .refl m _, .inr ⟨rfl, fun _ => hroom.symm⟩⟩
  | succ room =>
      have hoffer : s.offer report = ⟨s.fPos + 1, room, s.ok, s.reports ++ [report]⟩ := by
        rw [Filling.offer, hroom]
      rw [hoffer] at h
      obtain ⟨new, hreports, hcovers, hends⟩ := h
      refine ⟨report :: new, ?_, ?_, ?_⟩
      · rw [hreports, List.append_assoc]
        rfl
      · apply Covers.trans (Covers.one hreport hpos ?_) hcovers
        exact fun r hr heq => hr.eq_of_fPos hreport (heq.trans hpos.symm)
      · refine hends.imp id fun hrefused => ⟨hrefused.1, fun hok => ?_⟩
        rw [List.length_cons, hrefused.2 hok, hroom]

/-- A position without an entry. -/
theorem skip (hblank : ∀ r, Lists g d parent m r → r.fPos ≠ s.fPos)
    (h : Reads g d parent m { s with fPos := s.fPos + 1 } result) :
    Reads g d parent m s result := by
  obtain ⟨new, hreports, hcovers, hends⟩ := h
  exact ⟨new, hreports, (Covers.skip hblank).trans hcovers, hends⟩

end Reads

theorem readdirLoop_stopped {dirOi : Nat} {s : Filling} (h : s.ok = false) :
    readdirLoop m dirOi s = (.refused, s) := by
  rw [readdirLoop, if_neg]
  simp [h]

theorem Filling.le_offer (s : Filling) (report : Report) : s.fPos ≤ (s.offer report).fPos := by
  unfold offer
  split
  · exact le_rfl
  · exact Nat.le_succ s.fPos

theorem Filling.offer_fPos {s : Filling} {report : Report} (h : (s.offer report).ok = true) :
    (s.offer report).fPos = s.fPos + 1 := by
  unfold offer at h ⊢
  split at h
  · exact absurd h Bool.false_ne_true
  · rfl

theorem Filling.offer_ok {s : Filling} {report : Report} (h : s.room = 0) :
    (s.offer report).ok = false := by
  rw [offer, h]

theorem Sound.slot_of_lt (h : Sound lossless g m) (hd : IsDir g m d)
    (hlt : 128 * k < oiSize m (inodeAt d)) :
    slot g m (d, k) = some (odIno m (entryAt m d k), odName m (entryAt m d k)) := by
  apply slot_eq_some hd
  rw [lt_entryCount_iff (h.entrySize d hd)]
  have hsize := h.entrySize d hd
  omega

/-- The loop reads the entries from a position on. -/
theorem readdirLoop_reads (h : Sound lossless g m) (htyped : Typed g m) (hd : IsDir g m d)
    (s : Filling) (hpos : 2 ≤ s.fPos) :
    Reads g d parent m s (readdirLoop m (inodeAt d) s) := by
  fun_induction readdirLoop m (inodeAt d) s with
  | case1 s hgo hend =>
      refine ⟨[], (List.append_nil _).symm, .refl m _, .inl ⟨rfl, hpos, fun r hr => ?_⟩⟩
      dsimp only
      by_contra hge
      obtain ⟨k, hk⟩ : ∃ k, r.fPos = k + 2 := ⟨r.fPos - 2, by omega⟩
      have hcount := (of_slot_eq_some (hr.entry hk).2.1).2.1
      rw [lt_entryCount_iff (h.entrySize d hd)] at hcount
      omega
  | case2 s hgo hmore od hblank ih =>
      apply Reads.skip _ (ih (Nat.le_succ_of_le hpos))
      intro r hr heq
      have hslot := h.slot_of_lt hd (Nat.lt_of_not_le hmore)
      obtain ⟨hino, hentry, -⟩ := hr.entry (k := s.fPos - 2) (by omega)
      rw [hslot, Option.some.injEq, Prod.mk.injEq] at hentry
      exact hino (hentry.1.symm.trans hblank)
  | case3 s hgo hmore od hino hnone =>
      have hod : od = entryAt m d (s.fPos - 2) := rfl
      clear_value od
      subst hod
      have hlt := h.named _ _ _ (h.slot_of_lt hd (Nat.lt_of_not_le hmore))
      rw [h.stored.fits.ospfsInode hlt] at hnone
      exact absurd hnone (Option.some_ne_none _)
  | case4 s hgo hmore od hino entryOi hsome hunknown =>
      have hod : od = entryAt m d (s.fPos - 2) := rfl
      clear_value od
      subst hod
      have hlt := h.named _ _ _ (h.slot_of_lt hd (Nat.lt_of_not_le hmore))
      rw [h.stored.fits.ospfsInode hlt, Option.some.injEq] at hsome
      obtain ⟨type, htype⟩ := direntType_isSome (htyped _ hlt)
      rw [hsome, hunknown] at htype
      exact absurd htype.symm (Option.some_ne_none _)
  | case5 s hgo hmore od hino entryOi hsome type htype ih =>
      have hod : od = entryAt m d (s.fPos - 2) := rfl
      clear_value od
      subst hod
      have hslot := h.slot_of_lt hd (Nat.lt_of_not_le hmore)
      rw [h.stored.fits.ospfsInode (h.named _ _ _ hslot), Option.some.injEq] at hsome
      rw [← hsome] at htype
      have hreport : Lists g d parent m ⟨odName m (entryAt m d (s.fPos - 2)), s.fPos,
          odIno m (entryAt m d (s.fPos - 2)), type⟩ :=
        .inr (.inr ⟨s.fPos - 2, (Nat.sub_add_cancel hpos).symm, hino, hslot, htype⟩)
      apply Reads.offer hreport rfl
      · exact fun hroom => readdirLoop_stopped (Filling.offer_ok hroom)
      · apply ih
        exact hpos.trans (Filling.le_offer _ _)
  | case6 s hstop =>
      refine ⟨[], (List.append_nil _).symm, .refl m _, .inr ⟨rfl, fun hok => ?_⟩⟩
      exact absurd ⟨hok, hpos⟩ hstop

theorem readdirLoop_reads_of_stopped (s : Filling) (h : s.ok = false) :
    Reads g d parent m s (readdirLoop m (inodeAt d) s) := by
  rw [readdirLoop_stopped h]
  refine ⟨[], (List.append_nil _).symm, .refl m _, .inr ⟨rfl, fun hok => ?_⟩⟩
  exact absurd (hok.symm.trans h) (by decide)

/-- The entry for the parent, and what follows. -/
theorem dotDot_reads (h : Sound lossless g m) (htyped : Typed g m) (hd : IsDir g m d)
    (s : Filling) (hpos : s.ok = true → 1 ≤ s.fPos) :
    Reads g d parent m s (readdirLoop m (inodeAt d)
      (if s.ok = true ∧ s.fPos = 1 then s.offer ⟨[46, 46], s.fPos, parent, .dir⟩ else s)) := by
  split_ifs with hdots
  · obtain ⟨hok, hone⟩ := hdots
    have hreport : Lists g d parent m ⟨[46, 46], s.fPos, parent, .dir⟩ := by
      rw [hone]
      exact .inr (.inl rfl)
    apply Reads.offer hreport rfl
    · exact fun hroom => readdirLoop_stopped (Filling.offer_ok hroom)
    · cases hoffer : (s.offer ⟨[46, 46], s.fPos, parent, .dir⟩).ok with
      | false => exact readdirLoop_reads_of_stopped _ hoffer
      | true =>
          apply readdirLoop_reads h htyped hd
          rw [Filling.offer_fPos hoffer, hone]
  · cases hok : s.ok with
    | false => exact readdirLoop_reads_of_stopped s hok
    | true =>
        apply readdirLoop_reads h htyped hd
        have hone : s.fPos ≠ 1 := fun heq => hdots ⟨hok, heq⟩
        have hle := hpos hok
        omega

theorem offerDots_reads (h : Sound lossless g m) (htyped : Typed g m) (hd : IsDir g m d)
    (parent : Nat) (s : Filling) :
    Reads g d parent m s (readdirLoop m (inodeAt d) (s.offerDots d parent)) := by
  unfold Filling.offerDots
  by_cases hzero : s.fPos = 0
  · rw [if_pos hzero]
    have hreport : Lists g d parent m ⟨[46], s.fPos, d, .dir⟩ := by
      rw [hzero]
      exact .inl rfl
    apply Reads.offer hreport rfl
    · intro hroom
      have hstopped : (s.offer ⟨[46], s.fPos, d, .dir⟩).ok = false := Filling.offer_ok hroom
      rw [if_neg fun hdots => Bool.false_ne_true (hstopped.symm.trans hdots.1),
        readdirLoop_stopped hstopped]
    · apply dotDot_reads h htyped hd
      intro hok
      rw [Filling.offer_fPos hok]
      exact Nat.le_add_left 1 _
  · rw [if_neg hzero]
    apply dotDot_reads h htyped hd
    exact fun _ => Nat.one_le_iff_ne_zero.2 hzero

/-- A call reads the entries from `f_pos` on, until `filldir` refuses one. -/
theorem ospfsDirReaddir_reads (h : Sound lossless g m) (htyped : Typed g m) (hd : IsDir g m d)
    (parent fPos room : Nat) : ∃ result : ReaddirReturn × Filling,
      ospfsDirReaddir m d parent fPos room = (result.1, result.2.fPos, result.2.reports) ∧
        Reads g d parent m ⟨fPos, room, true, []⟩ result := by
  refine ⟨_, ?_, offerDots_reads h htyped hd parent _⟩
  obtain ⟨_, -, -, hends⟩ := offerDots_reads h htyped hd parent ⟨fPos, room, true, []⟩
  unfold ospfsDirReaddir
  rw [h.stored.fits.ospfsInode hd.1]
  dsimp only
  split
  · rename_i s hloop
    rw [hloop] at hends
    exact hends.elim (fun hend => absurd hend.1 (by simp)) fun hrefused =>
      absurd hrefused.1 (by simp)
  · rename_i r s _ hloop
    rw [hloop]

end Cs111Labs.Ospfs
