import Cs111Labs.Peer.ScanTakes

/-!
# Runs of the scanner

While no `%s` reaches a cut text, the scanner does on every cursor that shows a
text what the grammar says about the text.
-/

namespace Cs111Labs.Peer

variable {v : View} {d : Directive} {s s' t format format' beyond : List UInt8} {c : Cursor}
  {len : Nat} {values : List Value}

/-- A `%s` of the format is reached where the text is cut, with `format'` behind it. -/
def CutAt (format s format' : List UInt8) : Prop :=
  ∃ g t, Scans format s g t ∧ directive g = some (.string, format') ∧ cut t = true

/-- No `%s` reaches a cut text. -/
def Uncut (format s : List UInt8) : Prop := ∀ format', ¬ CutAt format s format'

theorem length_directive (h : directive format = some (d, format')) :
    format'.length < format.length := by
  have hdrop : ∀ format : List UInt8, (format.dropWhile isspace).length ≤ format.length :=
    fun format => (List.dropWhile_sublist _).length_le
  unfold directive at h
  split at h
  · cases h
  · cases h
    simp
  · cases h
    simp
  · cases h
    simp
  · cases h
    simp
  · cases h
    simp
  · split_ifs at h
    · cases h
      exact Nat.lt_succ_of_le (hdrop _)
    · cases h
      simp

theorem directive_eq_none (h : directive format = none) : format = [] := by
  unfold directive at h
  split at h
  · rfl
  · cases h
  · cases h
  · cases h
  · cases h
  · cases h
  · split_ifs at h

/-- A format is empty, or it is one part and a format. -/
theorem format_induction {motive : List UInt8 → Prop} (done : motive [])
    (step : ∀ {format d format'}, directive format = some (d, format') → motive format' →
      motive format)
    (format : List UInt8) : motive format := by
  induction hn : format.length using Nat.strong_induction_on generalizing format with
  | _ n ih =>
      subst hn
      cases hd : directive format with
      | none => exact directive_eq_none hd ▸ done
      | some p => exact step hd (ih _ (length_directive hd) p.2 rfl)

theorem Uncut.here (h : Uncut format s) (hd : directive format = some (d, format')) :
    d = .string → cut s = false := by
  rintro rfl
  exact Bool.eq_false_iff.mpr fun hcut => h format' ⟨format, s, .refl, hd, hcut⟩

theorem Uncut.next (h : Uncut format s) (hd : directive format = some (d, format'))
    (ht : Takes d s s') : Uncut format' s' := by
  rintro f ⟨g, t, hscan, hstring, hcut⟩
  exact h f ⟨g, t, .step hd ht hscan, hstring, hcut⟩

/-- Where the text ends in white space there is no cut. -/
theorem uncut_of_space (format s : List UInt8) {b : UInt8} (hb : isspace b = true) :
    Uncut format (s ++ [b]) := by
  rintro f ⟨g, t, hscan, -, hcut⟩
  rcases List.eq_nil_or_concat t with rfl | ⟨t, b', rfl⟩
  · cases hcut
  · have hlast : b' = b := by
      obtain ⟨w, hw⟩ := hscan.suffix
      rw [List.concat_eq_append, ← List.append_assoc] at hw
      exact (List.append_inj' hw rfl).2 |> List.cons.inj |>.1
    rw [List.concat_eq_append, hlast, not_cut_of_space t hb] at hcut
    cases hcut

theorem uncut_nil (format : List UInt8) : Uncut format [] := by
  rintro f ⟨g, t, hscan, -, hcut⟩
  obtain rfl := List.suffix_nil.mp hscan.suffix
  cases hcut

/-- A scan that leaves something over has met no cut. -/
theorem Scans.uncut (h : Scans format s [] t) (hne : t ≠ []) : Uncut format s := by
  rintro f ⟨g, u, hscan, hstring, hcut⟩
  have hrest := hscan.through h
  cases hrest with
  | refl => cases hstring
  | step hd ht hrest =>
      obtain ⟨rfl, rfl⟩ := Prod.mk.inj (Option.some.inj (hstring.symm.trans hd))
      obtain rfl := ht.of_cut hcut
      exact hne (List.suffix_nil.mp hrest.suffix)

/-! ## One part -/

theorem Directive.scan_takes (h : Sees v s c) (hcut : d = .string → cut s = false)
    (ht : Takes d s s') :
    d.scan len c = .outside ∧ v.Blind s' ∨
      ∃ value c', d.scan len c = .found value c' ∧ Sees v s' c' := by
  obtain ⟨a, hread⟩ := (d.read_iff len c.left).mpr ht
  have hagrees := d.scan_agrees len h hcut
  rw [hread] at hagrees
  exact hagrees.imp_right fun ⟨c', hfound, hc'⟩ => ⟨a, c', hfound, hc'⟩

theorem Directive.scan_found (h : Sees v s c) (hcut : d = .string → cut s = false)
    {value : Option Value} {c' : Cursor} (hfound : d.scan len c = .found value c') :
    ∃ s', Takes d s s' ∧ Sees v s' c' := by
  have hagrees := d.scan_agrees len h hcut
  cases hread : d.read len c.left s with
  | none =>
      rw [hread, hfound] at hagrees
      rcases hagrees with hout | hmismatch
      · cases hout.1
      · cases hmismatch
  | some p =>
      rw [hread, hfound] at hagrees
      rcases hagrees with hout | ⟨c'', heq, hc''⟩
      · cases hout.1
      cases heq
      exact ⟨p.2, (d.read_iff len c.left).mp ⟨p.1, hread⟩, hc''⟩

/-! ## The whole format -/

theorem vsnscanfFrom_found {value : Option Value} {c' : Cursor}
    (hd : directive format = some (d, format')) (hfound : d.scan len c = .found value c') :
    vsnscanfFrom len format c values =
      vsnscanfFrom len format' c' (values ++ value.toList) := by
  rw [vsnscanfFrom_eq, hd]
  simp only [hfound]

theorem accepts_of_scans (h : Sees v s c) (hcut : Uncut format s)
    (hscan : Scans format s format' t) (hdone : format' = []) (hblind : ¬ v.Blind t) :
    ∃ vs, vsnscanfFrom len format c values = some (0, vs) := by
  induction hscan generalizing c values with
  | refl =>
      subst hdone
      exact ⟨values, by rw [vsnscanfFrom_eq]; rfl⟩
  | step hd ht hrest ih =>
      rcases Directive.scan_takes h (hcut.here hd) ht with ⟨-, hout⟩ | ⟨value, c', hfound, hc'⟩
      · exact absurd (hout.mono hrest.suffix.length_le) hblind
      · rw [vsnscanfFrom_found hd hfound]
        exact ih hc' (hcut.next hd ht) hdone hblind

theorem scans_of_accepts {vs : List Value} (h : Sees v s c) (hcut : Uncut format s)
    (haccepts : vsnscanfFrom len format c values = some (0, vs)) :
    ∃ t c', Scans format s [] t ∧ Sees v t c' := by
  induction format using format_induction generalizing s c values with
  | done => exact ⟨s, c, .refl, h⟩
  | @step format d format' hd ih =>
      rw [vsnscanfFrom_eq, hd] at haccepts
      cases hscan : d.scan len c with
      | mismatch => simp [hscan] at haccepts
      | outside => simp [hscan] at haccepts
      | found value c' =>
          simp only [hscan] at haccepts
          obtain ⟨s', ht, hc'⟩ := Directive.scan_found h (hcut.here hd) hscan
          obtain ⟨t, c'', hrest, ht'⟩ := ih hc' (hcut.next hd ht) haccepts
          exact ⟨t, c'', .step hd ht hrest, ht'⟩

/-! ## Up to a cut -/

/-- Before the text is cut the scanner works inside it. -/
theorem run_to_cut {g : List UInt8} (h : Sees (.inside beyond) s c)
    (hscan : Scans format s g t) (hcut : cut t = true) :
    ∃ c' vs, Sees (.inside beyond) t c' ∧
      vsnscanfFrom len format c values = vsnscanfFrom len g c' vs := by
  induction hscan generalizing c values with
  | refl => exact ⟨c, values, h, rfl⟩
  | @step _ _ _ s s' t d hd ht hrest ih =>
      have hhere : d = .string → cut s = false := by
        rintro rfl
        refine Bool.eq_false_iff.mpr fun hs => ?_
        obtain rfl := ht.of_cut hs
        obtain rfl := List.suffix_nil.mp hrest.suffix
        cases hcut
      rcases Directive.scan_takes h hhere ht with ⟨-, hout⟩ | ⟨value, c', hfound, hc'⟩
      · exact hout.elim
      · rw [vsnscanfFrom_found hd hfound]
        exact ih hc' hcut

/-! ## A quoted byte over the end -/

theorem scanString_plain {b : UInt8} {m : List UInt8} {left : Int} (hleft : left ≠ 0)
    (hspace : isspace b = false) (hne : b ≠ percent) :
    scanString (b :: m) left = (scanString m (left - 1)).store b := by
  rw [scanString.eq_def]
  simp only [hleft, hspace, hne, Bool.false_eq_true, or_self, if_false]

theorem scanString_stop {m : List UInt8} {left : Int} (hstop : peek isspace m = true) :
    scanString m left = .found [] ⟨m, left⟩ := by
  cases m with
  | nil => cases hstop
  | cons b m => rw [scanString.eq_def]; simp only [show isspace b = true from hstop, or_true, if_true]

/-- How a `%s` ends behind a cut, with `m` behind the text. -/
def PastCut (m : List UInt8) (r : Scanned (List UInt8)) : Prop :=
  r = .outside ∨ (∃ name, r = .found name ⟨m, 0⟩) ∨
    ∃ name rest left, r = .found name ⟨rest, left⟩ ∧ left < 0 ∧ peek isspace rest = true

theorem PastCut.store {m : List UInt8} {r : Scanned (List UInt8)} (h : PastCut m r)
    (b : UInt8) : PastCut m (r.store b) := by
  rcases h with rfl | ⟨name, rfl⟩ | ⟨name, rest, left, rfl, hleft, hspace⟩
  · exact .inl rfl
  · exact .inr (.inl ⟨b :: name, rfl⟩)
  · exact .inr (.inr ⟨b :: name, rest, left, rfl, hleft, hspace⟩)

theorem pastCut_of_neg (m m' : List UInt8) {left : Int} (hleft : left < 0) :
    PastCut m (scanString m' left) := by
  fun_induction scanString m' left with
  | case1 => omega
  | case2 => exact .inl rfl
  | case3 b rest left hstop =>
      have hspace : isspace b = true := hstop.resolve_left (by omega)
      exact .inr (.inr ⟨[], _, left, rfl, hleft, hspace⟩)
  | case4 => exact .inl rfl
  | case5 => exact .inl rfl
  | case6 _ _ _ _ _ _ _ ih => exact (ih (by omega)).store _
  | case7 _ _ _ _ _ _ _ ih => exact (ih (by omega)).store _
  | case8 _ _ _ _ _ ih => exact (ih (by omega)).store _
  | case9 _ _ _ _ _ ih => exact (ih (by omega)).store _

theorem cut_plain {b : UInt8} (hspace : isspace b = false) (hne : b ≠ percent) (s : List UInt8) :
    cut (b :: s) = cut s := by
  rw [cut.eq_def]
  simp only [hspace, hne, Bool.false_eq_true, if_false]

/-- The begin of a quoted byte. -/
def Quote (last : List UInt8) : Prop :=
  last = [percent] ∨ ∃ d, isxdigit d = true ∧ last = [percent, d]

/-- Up to the begun quoted byte the bytes are stored one by one. -/
theorem scanString_to_quote (h : cut s = true) :
    ∃ name last : List UInt8, Quote last ∧ ∀ m, scanString (s ++ m) s.length =
      name.foldr Scanned.store (scanString (last ++ m) last.length) := by
  fun_induction cut s with
  | case1 => cases h
  | case2 => cases h
  | case3 => exact ⟨[], [percent], .inl rfl, fun m => rfl⟩
  | case4 d hd => exact ⟨[], [percent, d], .inr ⟨d, hd, rfl⟩, fun m => rfl⟩
  | case5 d hd l rest hl _ ih =>
      obtain ⟨name, last, hquote, hrest⟩ := ih h
      refine ⟨(xvalue d * 16 + xvalue l) :: name, last, hquote, fun m => ?_⟩
      have hleft : ((percent :: d :: l :: rest).length : Int) - 3 = rest.length := by
        simp
        omega
      rw [List.cons_append, List.cons_append, List.cons_append, scanString_percent (by simp; omega)]
      simp only [hd, hl, if_true, hleft, hrest m, List.foldr_cons]
  | case6 d hd l rest hl _ ih =>
      obtain ⟨name, last, hquote, hrest⟩ := ih h
      refine ⟨percent :: name, last, hquote, fun m => ?_⟩
      have hleft : ((percent :: d :: l :: rest).length : Int) - 1 =
          ((d :: l :: rest).length : Nat) := by
        simp
      rw [List.cons_append, List.cons_append, List.cons_append, scanString_percent (by simp; omega)]
      simp only [hd, hl, if_true, hleft, List.foldr_cons]
      rw [← hrest m]
      rfl
  | case7 d rest hd _ ih =>
      obtain ⟨name, last, hquote, hrest⟩ := ih h
      refine ⟨percent :: name, last, hquote, fun m => ?_⟩
      have hleft : ((percent :: d :: rest).length : Int) - 1 =
          ((d :: rest).length : Nat) := by
        simp
      rw [List.cons_append, List.cons_append, scanString_percent (by simp; omega)]
      simp only [hd, hleft, List.foldr_cons]
      rw [← hrest m]
      rfl
  | case8 b rest hb hne ih =>
      obtain ⟨name, last, hquote, hrest⟩ := ih h
      refine ⟨b :: name, last, hquote, fun m => ?_⟩
      have hleft : ((b :: rest).length : Int) - 1 = rest.length := by simp
      rw [List.cons_append, scanString_plain (by simp; omega) (Bool.eq_false_iff.mpr hb) hne,
        hleft, hrest m, List.foldr_cons]

theorem foldr_store_outside (name : List UInt8) :
    name.foldr Scanned.store .outside = .outside := by
  induction name with
  | nil => rfl
  | cons b name ih => rw [List.foldr_cons, ih, Scanned.store]

theorem foldr_store_found (name name' : List UInt8) (c : Cursor) :
    name.foldr Scanned.store (.found name' c) = .found (name ++ name') c := by
  induction name with
  | nil => rfl
  | cons b name ih => rw [List.foldr_cons, ih, Scanned.store, List.cons_append]

theorem PastCut.foldr_store {m : List UInt8} {r : Scanned (List UInt8)} (h : PastCut m r)
    (name : List UInt8) : PastCut m (name.foldr Scanned.store r) := by
  induction name with
  | nil => exact h
  | cons b name ih => exact ih.store b

theorem Quote.outside {last : List UInt8} (h : Quote last) :
    scanString last last.length = .outside := by
  rcases h with rfl | ⟨d, hd, rfl⟩
  · rfl
  · rw [scanString_percent (by simp)]
    simp only [hd, if_true]

theorem Quote.past {last : List UInt8} (h : Quote last) (m : List UInt8) :
    PastCut m (scanString (last ++ m) last.length) := by
  have hend : ∀ m, scanString m 0 = .found [] ⟨m, 0⟩ := fun m => by
    cases m with
    | nil => rfl
    | cons b m =>
        rw [scanString.eq_def]
        simp
  rcases h with rfl | ⟨d, hd, rfl⟩
  · rw [List.singleton_append, scanString_percent (by simp)]
    cases m with
    | nil => exact .inl rfl
    | cons d m =>
        by_cases hd : isxdigit d = true
        · cases m with
          | nil => simp [hd, PastCut]
          | cons l m =>
              by_cases hl : isxdigit l = true
              · simp only [hd, hl, if_true]
                exact (pastCut_of_neg _ m (by simp)).store _
              · simp only [hd, hl, if_true]
                exact .inr (.inl ⟨[percent], by simp [hend, Scanned.store]⟩)
        · simp only [hd]
          exact .inr (.inl ⟨[percent], by simp [hend, Scanned.store]⟩)
  · rw [List.cons_append, List.singleton_append, scanString_percent (by simp)]
    simp only [hd, if_true]
    cases m with
    | nil => exact .inl rfl
    | cons l m =>
        by_cases hl : isxdigit l = true
        · simp only [hl, if_true]
          exact (pastCut_of_neg _ m (by simp)).store _
        · have hone : scanString (d :: l :: m) 1 = .found [d] ⟨l :: m, 0⟩ := by
            rw [scanString_plain (by decide) (not_isspace_of_isxdigit d hd)
              (ne_percent_of_isxdigit hd), show (1 : Int) - 1 = 0 from rfl, hend]
            rfl
          simp only [hl]
          exact .inr (.inl ⟨[percent, d], by simp [hone, Scanned.store]⟩)

/-- Whatever begins with white space may be where the `%s` ends. -/
theorem Quote.reaches {last text : List UInt8} (h : Quote last)
    (hspace : peek isspace text = true) :
    ∃ beyond name left, scanString (last ++ beyond) last.length = .found name ⟨text, left⟩ ∧
      left < 0 := by
  have hzero : isxdigit 48 = true := rfl
  rcases h with rfl | ⟨d, hd, rfl⟩
  · refine ⟨48 :: 48 :: text, [xvalue 48 * 16 + xvalue 48], -2, ?_, by decide⟩
    rw [List.singleton_append, scanString_percent (by simp)]
    simp only [hzero, if_true]
    rw [show (([percent].length : Nat) : Int) - 3 = -2 from rfl, scanString_stop hspace]
    rfl
  · refine ⟨48 :: text, [xvalue d * 16 + xvalue 48], -1, ?_, by decide⟩
    rw [List.cons_append, List.singleton_append, scanString_percent (by simp)]
    simp only [hd, hzero, if_true]
    rw [show (([percent, d].length : Nat) : Int) - 3 = -1 from rfl, scanString_stop hspace]
    rfl

theorem scanString_outside_of_cut (h : cut s = true) : scanString s s.length = .outside := by
  obtain ⟨name, last, hquote, hrest⟩ := scanString_to_quote h
  have hrun := hrest []
  rwa [List.append_nil, List.append_nil, hquote.outside, foldr_store_outside] at hrun

theorem pastCut (h : cut s = true) (m : List UInt8) :
    PastCut m (scanString (s ++ m) s.length) := by
  obtain ⟨name, last, hquote, hrest⟩ := scanString_to_quote h
  rw [hrest m]
  exact (hquote.past m).foldr_store name

theorem reaches_of_cut {text : List UInt8} (h : cut s = true)
    (hspace : peek isspace text = true) :
    ∃ beyond name left, scanString (s ++ beyond) s.length = .found name ⟨text, left⟩ ∧
      left < 0 := by
  obtain ⟨name, last, hquote, hrest⟩ := scanString_to_quote h
  obtain ⟨beyond, name', left, hfound, hleft⟩ := hquote.reaches hspace
  exact ⟨beyond, name ++ name', left, by rw [hrest, hfound, foldr_store_found], hleft⟩

end Cs111Labs.Peer
