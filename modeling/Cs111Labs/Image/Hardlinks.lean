import Mathlib.Tactic

/-!
# Hard links in ospfsformat

The files with several names are kept in a list, the last one first.  The field
for the host's inode number has 32 bits, the field for the OSPFS inode 64; the
parameters of the two functions have it the other way round.
-/

namespace Cs111Labs.Image

abbrev Digest := BitVec 128

structure Hardlink where
  ospIno : BitVec 64
  hostIno : BitVec 32
  md5Digest : Digest
  deriving DecidableEq, Repr

def getHardlink (linkContents : Bool) :
    List Hardlink → BitVec 64 → Option Digest → BitVec 32
  | [], _, _ => 0
  | cur :: next, hostIno, md5Digest =>
      if hostIno ≠ 0 ∧ cur.hostIno.setWidth 64 = hostIno ∨
          linkContents ∧ md5Digest = some cur.md5Digest then
        cur.ospIno.setWidth 32
      else getHardlink linkContents next hostIno md5Digest

def addHardlink (linkContents : Bool) (hardlinks : List Hardlink) (hostIno : BitVec 64)
    (ospIno : BitVec 32) (md5Digest : Option Digest) : List Hardlink :=
  ⟨ospIno.setWidth 64, hostIno.setWidth 32, if linkContents then md5Digest.getD 0 else 0⟩ ::
    hardlinks

/-! ## The entries of a directory tree -/

structure Inodes where
  nextinode : BitVec 32
  hardlinks : List Hardlink
  deriving DecidableEq, Repr

/-- The formatter before the first entry: inodes 0 and 1 are taken. -/
def Inodes.start : Inodes := ⟨2, []⟩

def allocinode (ninodes : BitVec 32) (s : Inodes) : Option (BitVec 32 × Inodes) :=
  if s.nextinode = ninodes then none
  else some (s.nextinode, { s with nextinode := s.nextinode + 1 })

/-- The inode of a file, new or found; `consult` if the list is used. -/
def linkedInode (linkContents consult : Bool) (ninodes : BitVec 32) (hostIno : BitVec 64)
    (md5Digest : Option Digest) (s : Inodes) : Option (BitVec 32 × Inodes) :=
  let hardlinkIno := if consult then getHardlink linkContents s.hardlinks hostIno md5Digest else 0
  if hardlinkIno = 0 then
    (allocinode ninodes s).map fun (ino, s) =>
      (ino, if consult then
          { s with hardlinks := addHardlink linkContents s.hardlinks hostIno ino md5Digest }
        else s)
  else some (hardlinkIno, s)

/-- What `writedirectory` finds.  The host's number is 0 for a file with one name. -/
inductive Entry where
  | file (hostIno : BitVec 64) (md5Digest : Digest)
  | symlink (hostIno : BitVec 64)
  | directory
  deriving DecidableEq, Repr

def writefile (linkContents : Bool) (ninodes : BitVec 32) (hostIno : BitVec 64)
    (md5Digest : Digest) : Inodes → Option (BitVec 32 × Inodes) :=
  linkedInode linkContents (hostIno ≠ 0 || linkContents) ninodes hostIno (some md5Digest)

def addsymlink (linkContents : Bool) (ninodes : BitVec 32) (hostIno : BitVec 64) :
    Inodes → Option (BitVec 32 × Inodes) :=
  linkedInode linkContents (hostIno ≠ 0) ninodes hostIno none

def Entry.write (linkContents : Bool) (ninodes : BitVec 32) :
    Entry → Inodes → Option (BitVec 32 × Inodes)
  | file hostIno md5Digest => writefile linkContents ninodes hostIno md5Digest
  | symlink hostIno => addsymlink linkContents ninodes hostIno
  | directory => allocinode ninodes

/-- The entries with their inodes. -/
def writeEntries (linkContents : Bool) (ninodes : BitVec 32) :
    List Entry → Inodes → Option (List (Entry × BitVec 32))
  | [], _ => some []
  | entry :: entries, s =>
      (entry.write linkContents ninodes s).bind fun (ino, s) =>
        (writeEntries linkContents ninodes entries s).map ((entry, ino) :: ·)

def Entry.hostIno : Entry → BitVec 64
  | file hostIno _ => hostIno
  | symlink hostIno => hostIno
  | directory => 0

/-! ## Sequences of calls -/

inductive Call where
  | get (hostIno : BitVec 64) (md5Digest : Option Digest)
  | add (hostIno : BitVec 64) (ospIno : BitVec 32) (md5Digest : Option Digest)
  deriving DecidableEq, Repr

/-- The list after some calls without `-c`, the last call first. -/
def hardlinksAfter : List Call → List Hardlink
  | [] => []
  | .get _ _ :: older => hardlinksAfter older
  | .add hostIno ospIno md5Digest :: older =>
      addHardlink false (hardlinksAfter older) hostIno ospIno md5Digest

/-- The OSPFS inode that was last added for a host inode. -/
def lastAdded (hostIno : BitVec 64) : List Call → BitVec 32
  | [] => 0
  | .get _ _ :: older => lastAdded hostIno older
  | .add other ospIno _ :: older => if other = hostIno then ospIno else lastAdded hostIno older

/-- The number fits the field. -/
def Narrow (hostIno : BitVec 64) : Prop := hostIno.toNat < 2 ^ 32

instance : DecidablePred Narrow := fun _ => inferInstanceAs (Decidable (_ < _))

/-- The field has the same value for both. -/
def Alike (hostIno other : BitVec 64) : Prop := hostIno.setWidth 32 = other.setWidth 32

instance (hostIno other : BitVec 64) : Decidable (Alike hostIno other) :=
  inferInstanceAs (Decidable (_ = _))

def Call.addsAlike (hostIno : BitVec 64) : Call → Bool
  | get _ _ => false
  | add other _ _ => Alike hostIno other

/--
No other number hides the one looked up, if it fits the field, and nothing was
added for it otherwise.
-/
def Told (hostIno : BitVec 64) (calls : List Call) : Prop :=
  if Narrow hostIno then
    ∀ other ospIno md5Digest,
      calls.find? (Call.addsAlike hostIno) = some (.add other ospIno md5Digest) →
      other = hostIno ∨ ospIno = lastAdded hostIno calls
  else lastAdded hostIno calls = 0

variable {hostIno other : BitVec 64} {ospIno : BitVec 32} {md5Digest : Option Digest}
  {calls : List Call}

theorem narrow_iff : Narrow hostIno ↔ (hostIno.setWidth 32).setWidth 64 = hostIno := by
  rw [Narrow, ← BitVec.toNat_inj]
  simp only [BitVec.toNat_setWidth]
  omega

theorem Narrow.eq_of_alike (h : Narrow hostIno) (hother : Narrow other)
    (halike : Alike hostIno other) : hostIno = other := by
  rw [← narrow_iff.mp h, ← narrow_iff.mp hother, halike]

theorem setWidth_field_eq_iff (field : BitVec 32) :
    field.setWidth 64 = hostIno ↔ Narrow hostIno ∧ field = hostIno.setWidth 32 := by
  have hback : (field.setWidth 64).setWidth 32 = field := BitVec.setWidth_setWidth_of_le _ (by decide)
  constructor
  · rintro rfl
    rw [narrow_iff, hback]
    exact ⟨rfl, rfl⟩
  · rintro ⟨hnarrow, rfl⟩
    exact narrow_iff.mp hnarrow

/-! ## What a look-up finds -/

theorem getHardlink_wide (hwide : ¬ Narrow hostIno) (hardlinks : List Hardlink) :
    getHardlink false hardlinks hostIno md5Digest = 0 := by
  induction hardlinks with
  | nil => rfl
  | cons cur next ih =>
      rw [getHardlink, if_neg, ih]
      simp [setWidth_field_eq_iff, hwide]

theorem getHardlink_of_find_none (hnarrow : Narrow hostIno)
    (h : calls.find? (Call.addsAlike hostIno) = none) :
    getHardlink false (hardlinksAfter calls) hostIno md5Digest = 0 := by
  induction calls with
  | nil => rfl
  | cons call older ih =>
      rw [List.find?_eq_none, List.forall_mem_cons, ← List.find?_eq_none] at h
      cases call with
      | get _ _ => exact ih h.2
      | add other ospIno digest =>
          have hother : ¬ Alike hostIno other := by simpa [Call.addsAlike] using h.1
          rw [hardlinksAfter, addHardlink, getHardlink, if_neg, ih h.2]
          simpa [setWidth_field_eq_iff, hnarrow] using fun _ heq => hother heq.symm

theorem getHardlink_of_find (hhost : hostIno ≠ 0) (hnarrow : Narrow hostIno)
    {digest : Option Digest}
    (h : calls.find? (Call.addsAlike hostIno) = some (.add other ospIno digest)) :
    getHardlink false (hardlinksAfter calls) hostIno md5Digest = ospIno := by
  induction calls with
  | nil => cases h
  | cons call older ih =>
      rw [List.find?_cons_eq_some] at h
      cases call with
      | get _ _ => exact ih (by simpa [Call.addsAlike] using h)
      | add newer newIno newDigest =>
          rw [hardlinksAfter, addHardlink, getHardlink]
          rcases h with ⟨halike, heq⟩ | ⟨halike, hfind⟩
          · injection heq with _ hospIno _
            rw [if_pos (.inl ⟨hhost, (setWidth_field_eq_iff _).2
              ⟨hnarrow, (of_decide_eq_true halike).symm⟩⟩), hospIno]
            exact BitVec.setWidth_setWidth_of_le _ (by decide)
          · rw [if_neg, ih hfind]
            simpa [setWidth_field_eq_iff, hnarrow] using
              fun _ heq => absurd halike (by simp [Call.addsAlike, Alike, heq])

theorem lastAdded_of_find_none (h : calls.find? (Call.addsAlike hostIno) = none) :
    lastAdded hostIno calls = 0 := by
  induction calls with
  | nil => rfl
  | cons call older ih =>
      rw [List.find?_eq_none, List.forall_mem_cons, ← List.find?_eq_none] at h
      cases call with
      | get _ _ => exact ih h.2
      | add other ospIno digest =>
          rw [lastAdded, if_neg, ih h.2]
          rintro rfl
          exact h.1 (decide_eq_true rfl)

theorem lastAdded_of_find
    (h : calls.find? (Call.addsAlike hostIno) = some (.add hostIno ospIno md5Digest)) :
    lastAdded hostIno calls = ospIno := by
  induction calls with
  | nil => cases h
  | cons call older ih =>
      rw [List.find?_cons_eq_some] at h
      cases call with
      | get _ _ => exact ih (by simpa [Call.addsAlike] using h)
      | add newer newIno newDigest =>
          rw [lastAdded]
          rcases h with ⟨-, heq⟩ | ⟨halike, hfind⟩
          · injection heq with hnewer hospIno _
            rw [if_pos hnewer, hospIno]
          · rw [if_neg, ih hfind]
            rintro rfl
            exact absurd halike (by simp [Call.addsAlike, Alike])

theorem getHardlink_eq_lastAdded_iff (hhost : hostIno ≠ 0) :
    getHardlink false (hardlinksAfter calls) hostIno md5Digest = lastAdded hostIno calls ↔
      Told hostIno calls := by
  unfold Told
  split_ifs with hnarrow
  · cases hfind : calls.find? (Call.addsAlike hostIno) with
    | none => simp [getHardlink_of_find_none hnarrow hfind, lastAdded_of_find_none hfind]
    | some call =>
        cases call with
        | get _ _ => exact absurd (List.find?_some hfind) (by simp [Call.addsAlike])
        | add other ospIno digest =>
            rw [getHardlink_of_find hhost hnarrow hfind]
            constructor
            · rintro h _ _ _ heq
              injection heq with heq
              injection heq with _ hospIno _
              exact .inr (hospIno ▸ h)
            · intro h
              rcases h other ospIno digest rfl with rfl | h
              · exact (lastAdded_of_find hfind).symm
              · exact h
  · rw [getHardlink_wide hnarrow, eq_comm]

theorem find_of_mem (halike : Alike hostIno other) (h : .add other ospIno md5Digest ∈ calls) :
    calls.find? (Call.addsAlike hostIno) ≠ none := by
  rw [← Option.isSome_iff_ne_none, List.find?_isSome]
  exact ⟨_, h, decide_eq_true halike⟩

/-- Only a call of `addHardlink` is found. -/
theorem find_cases (hostIno : BitVec 64) (calls : List Call) :
    calls.find? (Call.addsAlike hostIno) = none ∨ ∃ other ospIno md5Digest,
      calls.find? (Call.addsAlike hostIno) = some (.add other ospIno md5Digest) ∧
        Alike hostIno other := by
  cases hfind : calls.find? (Call.addsAlike hostIno) with
  | none => exact .inl rfl
  | some call =>
      cases call with
      | get _ _ => exact absurd (List.find?_some hfind) (by simp [Call.addsAlike])
      | add other ospIno digest =>
          have halike := List.find?_some hfind
          exact .inr ⟨other, ospIno, digest, rfl, of_decide_eq_true halike⟩

/-! ## Files that share an inode -/

/-- Two entries have one inode only if they are names of one file. -/
def Apart (p q : Entry × BitVec 32) : Prop :=
  p.2 = q.2 → p.1.hostIno ≠ 0 ∧ p.1.hostIno = q.1.hostIno

instance : Std.Symm Apart where
  symm _ _ h heq := ⟨(h heq.symm).2 ▸ (h heq.symm).1, (h heq.symm).2.symm⟩

/-- The first has a number that does not fit, the second the number that the field keeps of it. -/
def Confusable (earlier later : Entry) : Prop :=
  later.hostIno ≠ 0 ∧ Narrow later.hostIno ∧ ¬ Narrow earlier.hostIno ∧
    Alike later.hostIno earlier.hostIno

variable {ninodes : BitVec 32} {entry : Entry} {ino : BitVec 32} {s s' : Inodes}
  {done later : List (Entry × BitVec 32)}

theorem allocinode_eq_some :
    allocinode ninodes s = some (ino, s') ↔
      s.nextinode ≠ ninodes ∧ ino = s.nextinode ∧
        s' = { s with nextinode := s.nextinode + 1 } := by
  rw [allocinode, Option.ite_none_left_eq_some, Option.some.injEq, Prod.mk.injEq,
    eq_comm (a := ino), eq_comm (a := s')]

/-- An entry is found in the list, or it gets the next inode. -/
theorem Entry.write_cases (h : entry.write false ninodes s = some (ino, s')) :
    ∃ md5Digest,
      (entry.hostIno ≠ 0 ∧ getHardlink false s.hardlinks entry.hostIno md5Digest = ino ∧
        ino ≠ 0 ∧ s' = s) ∨
      ((entry.hostIno ≠ 0 → getHardlink false s.hardlinks entry.hostIno md5Digest = 0) ∧
        s.nextinode ≠ ninodes ∧ ino = s.nextinode ∧
        s' = ⟨s.nextinode + 1, if entry.hostIno ≠ 0 then
          addHardlink false s.hardlinks entry.hostIno ino md5Digest else s.hardlinks⟩) := by
  have hlinked : ∃ md5Digest, linkedInode false (entry.hostIno ≠ 0) ninodes entry.hostIno
      md5Digest s = some (ino, s') := by
    cases entry with
    | file hostIno digest =>
        rw [write, writefile, Bool.or_false] at h
        exact ⟨some digest, h⟩
    | symlink hostIno => exact ⟨none, h⟩
    | directory => exact ⟨none, by simpa [write, linkedInode, hostIno] using h⟩
  obtain ⟨md5Digest, hlinked⟩ := hlinked
  refine ⟨md5Digest, ?_⟩
  simp only [linkedInode, decide_eq_true_eq] at hlinked
  split_ifs at hlinked with hhost hget
  · obtain ⟨⟨fresh, t⟩, halloc, heq⟩ := Option.map_eq_some_iff.mp hlinked
    obtain ⟨hroom, rfl, rfl⟩ := allocinode_eq_some.mp halloc
    rw [Prod.mk.injEq] at heq
    obtain ⟨rfl, rfl⟩ := heq
    exact .inr ⟨fun _ => hget, hroom, rfl, by rw [if_pos hhost]⟩
  · rw [Option.some.injEq, Prod.mk.injEq] at hlinked
    exact .inl ⟨hhost, hlinked.1, hlinked.1 ▸ hget, hlinked.2.symm⟩
  · obtain ⟨⟨fresh, t⟩, halloc, heq⟩ := Option.map_eq_some_iff.mp hlinked
    obtain ⟨hroom, rfl, rfl⟩ := allocinode_eq_some.mp halloc
    rw [Prod.mk.injEq] at heq
    obtain ⟨rfl, rfl⟩ := heq
    exact .inr ⟨fun h => absurd h hhost, hroom, rfl, by rw [if_neg hhost]⟩
  · exact absurd rfl ‹¬ (0 : BitVec 32) = 0›

/-- What holds while the entries are written; `calls` has the calls of `addHardlink`. -/
structure Written (ninodes : BitVec 32) (done : List (Entry × BitVec 32)) (calls : List Call)
    (s : Inodes) : Prop where
  links : s.hardlinks = hardlinksAfter calls
  next : 2 ≤ s.nextinode.toNat ∧ s.nextinode.toNat ≤ ninodes.toNat
  below : ∀ p ∈ done, 2 ≤ p.2.toNat ∧ p.2.toNat < s.nextinode.toNat
  origin : ∀ call ∈ calls, ∃ p ∈ done, ∃ md5Digest, call = .add p.1.hostIno p.2 md5Digest
  wide : ∀ p ∈ done, ¬ Narrow p.1.hostIno →
    ∃ ospIno md5Digest, .add p.1.hostIno ospIno md5Digest ∈ calls
  single : calls.Pairwise fun call older => ∀ hostIno ospIno md5Digest,
    call = .add hostIno ospIno md5Digest → Narrow hostIno → older.addsAlike hostIno = false

namespace Written

theorem start (hninodes : 2 ≤ ninodes.toNat) : Written ninodes [] [] .start where
  links := rfl
  next := ⟨le_rfl, hninodes⟩
  below := by simp
  origin := by simp
  wide := by simp
  single := .nil

theorem origin_of_find (h : Written ninodes done calls s)
    (hfind : calls.find? (Call.addsAlike hostIno) = some (.add other ospIno md5Digest)) :
    ospIno ≠ 0 ∧ ∃ p ∈ done, p.1.hostIno = other ∧ p.2 = ospIno := by
  obtain ⟨p, hp, digest, heq⟩ := h.origin _ (List.mem_of_find?_eq_some hfind)
  injection heq with hother hospIno _
  refine ⟨?_, p, hp, hother.symm, hospIno.symm⟩
  rintro rfl
  have hpos := (h.below p hp).1
  rw [← hospIno] at hpos
  exact absurd hpos (by decide)

/-- A look-up that finds something gives the newest call for a number like it. -/
theorem find_of_getHardlink (h : Written ninodes done calls s) (hhost : hostIno ≠ 0)
    (hget : getHardlink false s.hardlinks hostIno md5Digest = ino) (hino : ino ≠ 0) :
    Narrow hostIno ∧ ∃ other digest, Alike hostIno other ∧
      calls.find? (Call.addsAlike hostIno) = some (.add other ino digest) := by
  have hnarrow : Narrow hostIno := by
    by_contra hwide
    exact hino (hget.symm.trans (getHardlink_wide hwide _))
  rw [h.links] at hget
  rcases find_cases hostIno calls with hfind | ⟨other, ospIno, digest, hfind, halike⟩
  · exact absurd (hget.symm.trans (getHardlink_of_find_none hnarrow hfind)) hino
  · rw [getHardlink_of_find hhost hnarrow hfind] at hget
    exact ⟨hnarrow, other, digest, halike, hget ▸ hfind⟩

theorem find_none_of_getHardlink (h : Written ninodes done calls s) (hhost : hostIno ≠ 0)
    (hnarrow : Narrow hostIno)
    (hget : getHardlink false s.hardlinks hostIno md5Digest = 0) :
    calls.find? (Call.addsAlike hostIno) = none := by
  rw [h.links] at hget
  rcases find_cases hostIno calls with hfind | ⟨other, ospIno, digest, hfind, -⟩
  · exact hfind
  · rw [getHardlink_of_find hhost hnarrow hfind] at hget
    exact absurd hget (h.origin_of_find hfind).1

/-- The inode is found, and nothing else changes. -/
theorem found (h : Written ninodes done calls s) (hnarrow : Narrow entry.hostIno)
    {p : Entry × BitVec 32} (hp : p ∈ done) (hino : p.2 = ino) :
    Written ninodes ((entry, ino) :: done) calls s where
  links := h.links
  next := h.next
  below := List.forall_mem_cons.mpr ⟨hino ▸ h.below p hp, h.below⟩
  origin call hcall := (h.origin call hcall).imp fun _ hq => ⟨List.mem_cons_of_mem _ hq.1, hq.2⟩
  wide := List.forall_mem_cons.mpr ⟨fun hwide => absurd hnarrow hwide, h.wide⟩
  single := h.single

theorem nextinode_succ (h : Written ninodes done calls s) (hroom : s.nextinode ≠ ninodes) :
    (s.nextinode + 1).toNat = s.nextinode.toNat + 1 ∧ s.nextinode.toNat < ninodes.toNat := by
  have hlt : s.nextinode.toNat < ninodes.toNat :=
    lt_of_le_of_ne h.next.2 fun heq => hroom (BitVec.eq_of_toNat_eq heq)
  have hbound := ninodes.isLt
  refine ⟨?_, hlt⟩
  rw [BitVec.toNat_add]
  exact Nat.mod_eq_of_lt (by simp; omega)

/-- The next inode is taken, and added to the list if the file has several names. -/
theorem fresh (h : Written ninodes done calls s) (hroom : s.nextinode ≠ ninodes)
    (hget : entry.hostIno ≠ 0 →
      getHardlink false s.hardlinks entry.hostIno md5Digest = 0) :
    Written ninodes ((entry, s.nextinode) :: done)
      (if entry.hostIno ≠ 0 then .add entry.hostIno s.nextinode md5Digest :: calls else calls)
      ⟨s.nextinode + 1, if entry.hostIno ≠ 0 then
        addHardlink false s.hardlinks entry.hostIno s.nextinode md5Digest else s.hardlinks⟩ := by
  obtain ⟨hsucc, hlt⟩ := h.nextinode_succ hroom
  have hnext := h.next
  have hinside : ∀ p ∈ (entry, s.nextinode) :: done,
      2 ≤ p.2.toNat ∧ p.2.toNat < (s.nextinode + 1).toNat := by
    rw [hsucc, List.forall_mem_cons]
    exact ⟨⟨hnext.1, Nat.lt_succ_self _⟩, fun p hp =>
      ⟨(h.below p hp).1, Nat.lt_succ_of_lt (h.below p hp).2⟩⟩
  have horigin : ∀ call ∈ calls, ∃ p ∈ (entry, s.nextinode) :: done, ∃ md5Digest,
      call = .add p.1.hostIno p.2 md5Digest := fun call hcall =>
    (h.origin call hcall).imp fun _ hq => ⟨List.mem_cons_of_mem _ hq.1, hq.2⟩
  have hcounter : 2 ≤ (s.nextinode + 1).toNat ∧ (s.nextinode + 1).toNat ≤ ninodes.toNat := by
    omega
  split_ifs with hhost
  · refine ⟨congrArg (addHardlink false · _ _ _) h.links, hcounter, hinside,
      List.forall_mem_cons.mpr ⟨?_, horigin⟩, List.forall_mem_cons.mpr ⟨?_, ?_⟩,
      h.single.cons ?_⟩
    · exact ⟨_, List.mem_cons_self, md5Digest, rfl⟩
    · exact fun _ => ⟨_, _, List.mem_cons_self⟩
    · intro p hp hwide
      obtain ⟨ospIno, digest, hmem⟩ := h.wide p hp hwide
      exact ⟨ospIno, digest, List.mem_cons_of_mem _ hmem⟩
    · rintro older holder _ _ _ heq hnarrow
      injection heq with heq
      have hnone := h.find_none_of_getHardlink hhost (heq ▸ hnarrow) (hget hhost)
      rw [← heq]
      simpa using List.find?_eq_none.mp hnone older holder
  · rw [not_not] at hhost
    exact ⟨h.links, hcounter, hinside, horigin, List.forall_mem_cons.mpr
      ⟨fun hwide => absurd (by rw [hhost]; decide) hwide, h.wide⟩, h.single⟩

/-- The new entry is apart from the others unless its number hides in the one of another. -/
theorem apart_iff (h : Written ninodes done calls s) (hdone : done.Pairwise Apart)
    (hwrite : entry.write false ninodes s = some (ino, s')) :
    (∃ calls', Written ninodes ((entry, ino) :: done) calls' s') ∧
      ((∀ p ∈ done, Apart p (entry, ino)) ↔ ∀ p ∈ done, ¬ Confusable p.1 entry) := by
  obtain ⟨md5Digest, ⟨hhost, hget, hino, rfl⟩ | ⟨hget, hroom, rfl, rfl⟩⟩ :=
    Entry.write_cases hwrite
  · obtain ⟨hnarrow, other, digest, halike, hfind⟩ := h.find_of_getHardlink hhost hget hino
    obtain ⟨-, p, hp, hother, hpino⟩ := h.origin_of_find hfind
    refine ⟨⟨calls, h.found hnarrow hp hpino⟩, fun hapart q hq hconf => ?_, fun hnot q hq hqino => ?_⟩
    · -- The newest call is for the same number, so it came before the call for `q`.
      have hsame : other = entry.hostIno := hother ▸ (hapart p hp hpino).2
      obtain ⟨ospIno, digest', hmem⟩ := h.wide q hq hconf.2.2.1
      have hqalike : Call.addsAlike entry.hostIno (.add q.1.hostIno ospIno digest') = true :=
        decide_eq_true hconf.2.2.2
      obtain ⟨-, newer, older, hcalls, hnewer⟩ := List.find?_eq_some_iff_append.mp hfind
      have hsingle := h.single
      rw [hcalls] at hmem hsingle
      rw [List.mem_append, List.mem_cons] at hmem
      rcases hmem with hmem | heq | hmem
      · exact absurd hqalike (by simpa using hnewer _ hmem)
      · injection heq with heq
        exact hconf.2.2.1 (by rw [heq, hsame]; exact hnarrow)
      · have hfalse := (List.pairwise_cons.mp (List.pairwise_append.mp hsingle).2.1).1 _ hmem
          _ _ _ rfl (hsame ▸ hnarrow)
        rw [hsame, hqalike] at hfalse
        cases hfalse
    · have hpnarrow : Narrow p.1.hostIno := by
        by_contra hwide
        exact hnot p hp ⟨hhost, hnarrow, hwide, hother ▸ halike⟩
      have hphost : p.1.hostIno = entry.hostIno :=
        (hnarrow.eq_of_alike hpnarrow (hother ▸ halike)).symm
      by_cases hqp : q = p
      · rw [hqp]
        exact ⟨hphost ▸ hhost, hphost⟩
      · obtain ⟨hqhost, hqeq⟩ := hdone.forall hq hp hqp (hqino.trans hpino.symm)
        exact ⟨hqhost, hqeq.trans hphost⟩
  · refine ⟨⟨_, h.fresh hroom hget⟩, fun _ p hp hconf => ?_, fun _ p hp heq => ?_⟩
    · obtain ⟨ospIno, digest, hmem⟩ := h.wide p hp hconf.2.2.1
      exact find_of_mem hconf.2.2.2 hmem
        (h.find_none_of_getHardlink hconf.1 hconf.2.1 (hget hconf.1))
    · have hbelow := (h.below p hp).2
      rw [heq] at hbelow
      exact absurd hbelow (lt_irrefl _)

theorem writeEntries (h : Written ninodes done calls s) (hdone : done.Pairwise Apart)
    {entries : List Entry} (hwrite : writeEntries false ninodes entries s = some later) :
    (later.Pairwise Apart ∧ ∀ p ∈ done, ∀ q ∈ later, Apart p q) ↔
      (entries.Pairwise fun earlier later => ¬ Confusable earlier later) ∧
        ∀ p ∈ done, ∀ entry ∈ entries, ¬ Confusable p.1 entry := by
  induction entries generalizing done calls s later with
  | nil =>
      obtain rfl := Option.some.inj hwrite
      simp
  | cons entry entries ih =>
      obtain ⟨⟨ino, s'⟩, hentry, hrest⟩ := Option.bind_eq_some_iff.mp hwrite
      obtain ⟨later', hlater', rfl⟩ := Option.map_eq_some_iff.mp hrest
      obtain ⟨⟨calls', h'⟩, hstep⟩ := h.apart_iff hdone hentry
      by_cases hapart : ∀ p ∈ done, Apart p (entry, ino)
      · have hnot := hstep.mp hapart
        have hrest := ih h' (List.pairwise_cons.mpr
          ⟨fun p hp => Std.Symm.symm _ _ (hapart p hp), hdone⟩) hlater'
        simp only [List.forall_mem_cons] at hrest
        simp only [List.pairwise_cons, List.forall_mem_cons]
        constructor
        · rintro ⟨⟨hx, hlater⟩, hp⟩
          obtain ⟨hentries, hx', hp'⟩ := hrest.mp ⟨hlater, hx, fun p hmem => (hp p hmem).2⟩
          exact ⟨⟨hx', hentries⟩, fun p hmem => ⟨hnot p hmem, hp' p hmem⟩⟩
        · rintro ⟨⟨hx, hentries⟩, hp⟩
          obtain ⟨hlater, hx', hp'⟩ := hrest.mpr ⟨hentries, hx, fun p hmem => (hp p hmem).2⟩
          exact ⟨⟨hx', hlater⟩, fun p hmem => ⟨hapart p hmem, hp' p hmem⟩⟩
      · have hconf := mt hstep.mpr hapart
        refine iff_of_false (fun h => hapart fun p hp => ?_) fun h => hconf fun p hp => ?_
        · exact h.2 p hp _ List.mem_cons_self
        · exact h.2 p hp _ List.mem_cons_self

end Written

/--
A look-up is right if and only if the newest call for a number with the same 32 bits
was for the number itself, or, where the number has more bits, there was no call for it.
Files share an inode only if they are one, unless the number of one is what the field
keeps of an earlier one.
-/
theorem hardlinks_exact_iff (calls : List Call) (hhost : hostIno ≠ 0)
    (md5Digest : Option Digest) (hninodes : 2 ≤ ninodes.toNat) (entries : List Entry)
    {written : List (Entry × BitVec 32)}
    (hwrite : writeEntries false ninodes entries .start = some written) :
    (getHardlink false (hardlinksAfter calls) hostIno md5Digest = lastAdded hostIno calls ↔
      Told hostIno calls) ∧
    (written.Pairwise Apart ↔
      entries.Pairwise fun earlier later => ¬ Confusable earlier later) := by
  refine ⟨getHardlink_eq_lastAdded_iff hhost, ?_⟩
  simpa using (Written.start hninodes).writeEntries .nil hwrite

/-- Two names of one file and another file. -/
theorem hardlinks_exact_iff_small :
    (getHardlink false (hardlinksAfter [.get 9 none, .add 7 2 none]) 7 none = 2 ↔
      Told 7 [.get 9 none, .add 7 2 none]) ∧
    (([(.symlink 7, 2), (.symlink 7, 2), (.directory, 3)] :
        List (Entry × BitVec 32)).Pairwise Apart ↔
      [.symlink 7, .symlink 7, .directory].Pairwise fun earlier later =>
        ¬ Confusable earlier later) :=
  hardlinks_exact_iff [.get 9 none, .add 7 2 none] (by decide) none
    (by decide : 2 ≤ (8 : BitVec 32).toNat) [.symlink 7, .symlink 7, .directory] rfl

/-- The numbers `2 ^ 32 + 7` and 7: the second is taken for the first, which is not found. -/
theorem longNumber_confused :
    ¬ ((∀ calls hostIno, hostIno ≠ 0 →
        getHardlink false (hardlinksAfter calls) hostIno none = lastAdded hostIno calls) ∨
      ∀ ninodes entries written,
        writeEntries false ninodes entries .start = some written → written.Pairwise Apart) := by
  rintro (h | h)
  · exact absurd (h [.add (2 ^ 32 + 7) 2 none] 7 (by decide)) (by decide)
  · have hpair := h 8 [.symlink (2 ^ 32 + 7), .symlink 7] _ rfl
    have hsame := List.rel_of_pairwise_cons hpair List.mem_cons_self rfl
    exact absurd hsame.2 (by decide)

end Cs111Labs.Image
