import Cs111Labs.Ospfs.EntryGrowth

/-!
# Following a symbolic link

`ospfs_follow_link` cuts the text of a conditional link at its first colon.
-/

namespace Cs111Labs.Ospfs

open Foundation Memory

variable {g : Geometry} {m m' : Memory} {own : Nat → Prop} {d ino : Nat}
  {name symname text target : Name}

/-- `"root?"` -/
def rootPrefix : Name := [114, 111, 111, 116, 63]

/-- `':'` -/
abbrev colon : UInt8 := 58

/-- `oi_symlink` has 52 bytes; `uid` is the one of the current process. -/
def ospfsFollowLink (m : Memory) (ino uid : Nat) : Except Errno Name × Memory :=
  match ospfsInode m ino with
  | none => (.error .oops, m)
  | some oi =>
      let oiSymlink := oi + 12
      if strncmpEq m oiSymlink rootPrefix then
        match strchr m colon 52 oiSymlink with
        | none => (.error .oops, m)
        | some pointer =>
            let m := copy m pointer [0]
            if uid = 0 then (.ok (cstring m 52 (oiSymlink + 5)), m)
            else (.ok (cstring m 52 (pointer + 1)), m)
      else (.ok (cstring m 52 oiSymlink), m)

/-- What a link stands for: the text `root?A:B` is a condition, any other text a path. -/
inductive StandsFor (uid : Nat) : Name → Name → Prop where
  | conditional (A B : Name) (h : colon ∉ A) :
      StandsFor uid (rootPrefix ++ A ++ colon :: B) (if uid = 0 then A else B)
  | path (text : Name) (h : ∀ A B, colon ∉ A → text ≠ rootPrefix ++ A ++ colon :: B) :
      StandsFor uid text text

/-! ## The stored text -/

theorem initSymlink_string (m : Memory) (oi : Nat) (hzero : 0 ∉ symname) :
    StringAt (initSymlink m oi symname) (oi + 12) symname where
  nonzero := hzero
  bytes i hi := by
    rw [initSymlink, copy_changesOnly _ _ [0] (oi + 12 + i) (by simp only [Set.mem_Ico]; omega)]
    simp [copy, hi]
  terminator := by simp [initSymlink, copy]

/-- The link that `ospfs_symlink` stores. -/
theorem ospfsSymlink_string (hw : WellFormed g m own d)
    (hd : oiFtype m (inodeAt d) = ftypeDir) (hdvd : 128 ∣ oiSize m (inodeAt d))
    (hzero : 0 ∉ symname) (hfree : findInode m = some ino) {newInode : Bool}
    (hdone : (ospfsSymlink m d name symname newInode).1 = none) :
    symname.length ≤ 51 ∧ ino < g.ninodes ∧
      g.Fits (ospfsSymlink m d name symname newInode).2 ∧
      StringAt (ospfsSymlink m d name symname newInode).2 (inodeAt ino + 12) symname := by
  have hfits := hw.stored.fits
  obtain ⟨hino, -⟩ := findInode_some hfits hfree
  unfold ospfsSymlink at hdone ⊢
  simp only [hfits.ospfsInode hw.lt] at hdone ⊢
  split_ifs at hdone ⊢ with hlength
  rw [not_or, not_lt, not_lt] at hlength
  rcases makeEntry_ends hw hd hdvd name (fun m oi => initSymlink m oi symname) newInode with
    ⟨errno, hfail, -⟩ | ⟨j, hj, -, ⟨-, m', hfail, -⟩ | ⟨-, od, m₁, hr, hmake⟩⟩
  · rw [hfail] at hdone
    cases hdone
  · rw [hfail] at hdone
    cases hdone
  · rw [hfree, Option.some.injEq] at hj
    subst hj
    rw [hmake]
    have hinit := initSymlink_changesOnly m₁ ino hlength.2
    refine ⟨hlength.2, hino, ?_, ?_⟩
    · exact hr.fits_enter (fun m oi => initSymlink m oi symname) hfits hinit hlength.1
    · refine (initSymlink_string m₁ (inodeAt ino) hzero).frame fun i hi =>
        hr.inode_eq (fun m oi => initSymlink m oi symname) hino hlength.1 ?_
      simp only [inodeBytes, Set.mem_Ico]
      omega

/-! ## The call -/

theorem conditional_iff (text : Name) :
    (∃ A B, colon ∉ A ∧ text = rootPrefix ++ A ++ colon :: B) ↔
      rootPrefix <+: text ∧ colon ∈ text := by
  constructor
  · rintro ⟨A, B, -, rfl⟩
    rw [List.append_assoc]
    exact ⟨List.prefix_append _ _, by simp⟩
  · rintro ⟨⟨rest, rfl⟩, hcolon⟩
    have hrest : colon ∈ rest := by
      rcases List.mem_append.1 hcolon with hroot | hrest
      · exact absurd hroot (by decide)
      · exact hrest
    obtain ⟨A, B, rfl, hA⟩ := List.eq_append_cons_of_mem hrest
    exact ⟨A, B, hA, by rw [List.append_assoc]⟩

section Call

variable (hfits : g.Fits m) (hino : ino < g.ninodes)
  (h : StringAt m (inodeAt ino + 12) text)

include hfits hino h

theorem followLink_path (hlength : text.length ≤ 51) (hroot : ¬ rootPrefix <+: text) (uid : Nat) :
    ospfsFollowLink m ino uid = (.ok text, m) := by
  have hprefix : ¬ strncmpEq m (inodeAt ino + 12) rootPrefix = true := fun heq =>
    hroot ((h.strncmpEq_iff (by decide)).1 heq)
  unfold ospfsFollowLink
  simp only [hfits.ospfsInode hino, if_neg hprefix, h.cstring_eq (Nat.lt_succ_of_le hlength)]

/-- Without a colon `strchr` returns the null pointer. -/
theorem followLink_oops (hroot : rootPrefix <+: text) (hcolon : colon ∉ text) (uid : Nat) :
    ospfsFollowLink m ino uid = (.error .oops, m) := by
  have hprefix : strncmpEq m (inodeAt ino + 12) rootPrefix = true :=
    (h.strncmpEq_iff (by decide)).2 hroot
  unfold ospfsFollowLink
  simp only [hfits.ospfsInode hino, if_pos hprefix, h.strchr_none (by decide) hcolon]

theorem followLink_conditional (hlength : text.length ≤ 51) {A B : Name} (hA : colon ∉ A)
    (htext : text = rootPrefix ++ A ++ colon :: B) (uid : Nat) :
    ∃ m', ospfsFollowLink m ino uid = (.ok (if uid = 0 then A else B), m') := by
  subst htext
  have hroot : rootPrefix <+: rootPrefix ++ A ++ colon :: B := by
    rw [List.append_assoc]
    exact List.prefix_append _ _
  have hprefix : strncmpEq m (inodeAt ino + 12) rootPrefix = true :=
    (h.strncmpEq_iff (by decide)).2 hroot
  have hbefore : colon ∉ rootPrefix ++ A := by
    rw [List.mem_append, not_or]
    exact ⟨by decide, hA⟩
  simp only [List.length_append, List.length_cons] at hlength
  have hchr : strchr m colon 52 (inodeAt ino + 12) =
      some (inodeAt ino + 12 + (rootPrefix ++ A).length) :=
    h.strchr_some hbefore (by
      rw [List.length_append]
      omega)
  set pointer := inodeAt ino + 12 + (rootPrefix ++ A).length with hpointer
  have hfirst : StringAt (copy m pointer [0]) (inodeAt ino + 12 + 5) A := h.cut.of_append
  have hsecond : StringAt m (pointer + 1) B := by
    rw [List.append_cons] at h
    have hrest := h.of_append
    have hend : (rootPrefix ++ A ++ [colon]).length = (rootPrefix ++ A).length + 1 :=
      List.length_append
    rwa [hend, ← Nat.add_assoc] at hrest
  have hsecond' : StringAt (copy m pointer [0]) (pointer + 1) B :=
    hsecond.frame fun i hi => copy_changesOnly m pointer [0] _ (by
      simp only [List.length_singleton, Set.mem_Ico]
      omega)
  refine ⟨copy m pointer [0], ?_⟩
  unfold ospfsFollowLink
  simp only [hfits.ospfsInode hino, if_pos hprefix, hchr]
  split_ifs
  · rw [hfirst.cstring_eq (by omega)]
  · rw [hsecond'.cstring_eq (by omega)]

end Call

/-! ## Storing and following -/

theorem emptyDisk_symlink (hlength : symname.length ≤ 51) :
    (ospfsSymlink emptyDisk 1 [97] symname true).1 = none := by
  have hfits := emptyDisk_formatted.fits
  unfold ospfsSymlink
  simp only [hfits.ospfsInode (by decide : 1 < 3)]
  rw [if_neg (by simp only [List.length_singleton]; omega)]
  rcases makeEntry_ends emptyDisk_wellFormed (by decide) (by decide) [97]
    (fun m oi => initSymlink m oi symname) true with
    ⟨errno, -, hfind | hfree⟩ | ⟨j, hj, -, ⟨hno, -⟩ | ⟨-, od, m₁, hr, hmake⟩⟩
  · exact absurd hfind (by decide)
  · exact absurd hfree (by decide)
  · exact absurd hno emptyDisk_room
  · rw [hmake]
    refine hr.instantiate_eq (fun m oi => initSymlink m oi symname) hfits
      (findInode_some hfits hj).1 (by decide) (initSymlink_changesOnly m₁ j hlength) (.inr ?_) true
    exact (initSymlink_fields m₁ (inodeAt j)).2.1

/-- A text that is stored is followed as it should be, unless it is `root?` without a colon. -/
theorem followsLink_iff (hw : WellFormed g m own d) (hd : oiFtype m (inodeAt d) = ftypeDir)
    (hdvd : 128 ∣ oiSize m (inodeAt d)) (hzero : 0 ∉ symname)
    (hfree : findInode m = some ino) {newInode : Bool}
    (hdone : (ospfsSymlink m d name symname newInode).1 = none) (uid : Nat) :
    (∃ target m', ospfsFollowLink (ospfsSymlink m d name symname newInode).2 ino uid =
        (.ok target, m') ∧ StandsFor uid symname target) ↔
      (rootPrefix <+: symname → colon ∈ symname) := by
  obtain ⟨hlength, hino, hfits, hstring⟩ := ospfsSymlink_string hw hd hdvd hzero hfree hdone
  constructor
  · rintro ⟨target, m', hfollow, -⟩ hroot
    by_contra hcolon
    rw [followLink_oops hfits hino hstring hroot hcolon uid] at hfollow
    cases hfollow
  · intro hcolon
    by_cases hroot : rootPrefix <+: symname
    · obtain ⟨A, B, hA, htext⟩ := (conditional_iff symname).2 ⟨hroot, hcolon hroot⟩
      obtain ⟨m', hfollow⟩ := followLink_conditional hfits hino hstring hlength hA htext uid
      refine ⟨_, m', hfollow, ?_⟩
      rw [htext]
      exact .conditional A B hA
    · refine ⟨symname, _, followLink_path hfits hino hstring hlength hroot uid, .path _ ?_⟩
      intro A B hA htext
      exact hroot ((conditional_iff symname).1 ⟨A, B, hA, htext⟩).1

theorem followsLink_iff_path :
    (∃ target m', ospfsFollowLink (ospfsSymlink emptyDisk 1 [97] [98] true).2 2 0 =
        (.ok target, m') ∧ StandsFor 0 [98] target) ↔
      (rootPrefix <+: [98] → colon ∈ ([98] : Name)) :=
  followsLink_iff emptyDisk_wellFormed (by decide) (by decide) (by decide) (by decide)
    (emptyDisk_symlink (by decide)) 0

/-- The link `root?` makes the kernel follow the null pointer. -/
theorem rootLink_not_followed :
    (ospfsSymlink emptyDisk 1 [97] rootPrefix true).1 = none ∧
      (ospfsFollowLink (ospfsSymlink emptyDisk 1 [97] rootPrefix true).2 2 0).1 =
        .error .oops := by
  have hdone : (ospfsSymlink emptyDisk 1 [97] rootPrefix true).1 = none :=
    emptyDisk_symlink (by decide)
  obtain ⟨-, hino, hfits, hstring⟩ := ospfsSymlink_string emptyDisk_wellFormed (by decide)
    (by decide) (by decide) (by decide : findInode emptyDisk = some 2) hdone
  refine ⟨hdone, ?_⟩
  rw [followLink_oops hfits hino hstring (List.prefix_refl _) (by decide) 0]

end Cs111Labs.Ospfs
