import Cs111Labs.Peer.ScanRuns

/-!
# Full matches

`osp2p_vsnscanf` tests at its end whether the format is used up, and not whether
the input is.
-/

namespace Cs111Labs.Peer

variable {s t t' u format format' beyond input : List UInt8} {c : Cursor} {len : Nat}
  {values : List Value} {d : Directive}

/-- `osp2p_vsnscanf` accepts the input exactly if the whole of it is derived from the
format, whatever is behind it in memory. -/
def AcceptsDerived (format input : List UInt8) : Prop :=
  ∀ beyond, (∃ values, vsnscanf (input ++ beyond) input.length format = some (0, values)) ↔
    Derives format input

/-- The format matches the begin of a text that starts with white space. -/
def FitsSpace (format : List UInt8) : Prop :=
  ∃ text rest, peek isspace text = true ∧ rest ≠ [] ∧ Scans format text [] rest

/-- The scanner's longest matches give the only reading of the input. -/
structure ReadsWhole (format input : List UInt8) : Prop where
  /-- The matches do not end before the input does. -/
  leftover : ∀ rest, Scans format input [] rest → rest = []
  /-- If the input can be derived, it can be so with longest matches and with numbers
  that the loop of `%d` reads. -/
  longest : Derives format input → Scans format input [] []
  /-- Behind a `%s` that runs over the end of the input nothing is matched. -/
  cut : ∀ format', CutAt format input format' → ¬ FitsSpace format'

/-! ## At a cut -/

theorem takes_nil (h : Takes d [] s) : s = [] ∧ (d = .string ∨ d = .count) := by
  obtain ⟨u, hs, hu, -, hint⟩ := h
  obtain ⟨rfl, rfl⟩ := List.append_eq_nil_iff.mp hs.symm
  refine ⟨rfl, ?_⟩
  cases d with
  | string => exact .inl rfl
  | count => exact .inr rfl
  | address =>
      have hdots := Octets.count_dot hu
      simp at hdots
  | integer => exact absurd rfl (hint rfl).1.ne_nil
  | space => exact absurd rfl hu.1
  | literal b => cases hu

/-- A format that matches the empty text matches nothing before white space. -/
theorem fitsSpace_of_nil (h : Scans format [] [] t) : FitsSpace format := by
  have hspace : ∀ {format s g t}, Scans format s g t → s = [] → Scans format [32] g [32] := by
    intro format s g t hscan
    induction hscan with
    | refl => exact fun _ => .refl
    | step hd ht _ ih =>
        rintro rfl
        obtain ⟨rfl, hkind⟩ := takes_nil ht
        refine .step hd ?_ (ih rfl)
        rcases hkind with rfl | rfl
        · refine ⟨[], rfl, List.forall_mem_nil _, fun b hb => ?_, nofun⟩
          obtain rfl := Option.some.inj hb
          rfl
        · exact ⟨[], rfl, rfl, trivial, nofun⟩
  exact ⟨[32], [32], rfl, nofun, hspace h rfl⟩

/-- Behind a cut there is nothing left to match. -/
theorem CutAt.through (hcut : CutAt format s format') (hall : Scans format s [] u) :
    Scans format' [] [] u := by
  obtain ⟨g, t, hscan, hstring, ht⟩ := hcut
  have hthrough := hscan.through hall
  cases hthrough with
  | refl => cases hstring
  | step hd htakes hthrough =>
      obtain ⟨rfl, rfl⟩ := Prod.mk.inj (Option.some.inj (hstring.symm.trans hd))
      obtain rfl := htakes.of_cut ht
      exact hthrough

theorem sees_input (input beyond : List UInt8) :
    Sees (.inside beyond) input ⟨input ++ beyond, input.length⟩ :=
  ⟨rfl, rfl⟩

/-- The run up to a cut, and what the `%s` does there. -/
theorem vsnscanf_at_cut {g : List UInt8} (hscan : Scans format input g t)
    (hstring : directive g = some (.string, format')) (ht : cut t = true)
    (beyond : List UInt8) :
    ∃ vs, vsnscanf (input ++ beyond) input.length format =
      match scanString (t ++ beyond) t.length with
      | .found name c' => vsnscanfFrom input.length format' c' (vs ++ [.string name])
      | .mismatch => some (-1, vs)
      | .outside => none := by
  obtain ⟨⟨rest, left⟩, vs, ⟨hrest, hleft⟩, hrun⟩ := run_to_cut (sees_input input beyond) hscan ht
  dsimp only at hrest hleft
  subst hrest hleft
  refine ⟨vs, ?_⟩
  rw [vsnscanf, hrun, vsnscanfFrom_eq, hstring]
  simp only [Directive.scan]
  cases scanString (t ++ beyond) t.length <;> rfl

/-- Over a cut the scanner reads behind the input. -/
theorem vsnscanf_cut_none (hcut : CutAt format input format') :
    vsnscanf (input ++ []) input.length format = none := by
  obtain ⟨g, t, hscan, hstring, ht⟩ := hcut
  obtain ⟨vs, hrun⟩ := vsnscanf_at_cut hscan hstring ht []
  rw [hrun, List.append_nil, scanString_outside_of_cut ht]

/-- What fits behind white space is accepted for some bytes behind the input. -/
theorem exists_accepted (hcut : CutAt format input format') (hfits : FitsSpace format') :
    ∃ beyond values, vsnscanf (input ++ beyond) input.length format = some (0, values) := by
  obtain ⟨g, t, hscan, hstring, ht⟩ := hcut
  obtain ⟨text, rest, hspace, hne, hmatch⟩ := hfits
  obtain ⟨beyond, name, left, hfound, hleft⟩ := reaches_of_cut ht hspace
  obtain ⟨vs, hrun⟩ := vsnscanf_at_cut hscan hstring ht beyond
  have hsees : Sees (.past []) text ⟨text, left⟩ := ⟨(List.append_nil text).symm, hleft⟩
  have hblind : ¬ (View.past []).Blind rest := fun hle =>
    hne (List.eq_nil_of_length_eq_zero (Nat.le_zero.mp hle))
  obtain ⟨values, haccepts⟩ := accepts_of_scans hsees (hmatch.uncut hne) hmatch rfl hblind
  exact ⟨beyond, values, by rw [hrun, hfound]; exact haccepts⟩

/-- Whatever is behind the input, it is accepted only if something fits. -/
theorem fitsSpace_of_accepted (hcut : CutAt format input format')
    (h : vsnscanf (input ++ beyond) input.length format = some (0, values)) :
    FitsSpace format' := by
  obtain ⟨g, t, hscan, hstring, ht⟩ := hcut
  obtain ⟨vs, hrun⟩ := vsnscanf_at_cut hscan hstring ht beyond
  rw [hrun] at h
  rcases pastCut ht beyond with hout | ⟨name, hfound⟩ | ⟨name, rest, left, hfound, hleft, hspace⟩
  · rw [hout] at h
    cases h
  · rw [hfound] at h
    have hsees : Sees (.inside beyond) [] ⟨beyond, 0⟩ := ⟨rfl, rfl⟩
    obtain ⟨u, -, hmatch, -⟩ := scans_of_accepts hsees (uncut_nil format') h
    exact fitsSpace_of_nil hmatch
  · rw [hfound] at h
    have hsees : Sees (.past [32]) (rest ++ [32]) ⟨rest, left⟩ := ⟨rfl, hleft⟩
    obtain ⟨u, c, hmatch, hu⟩ :=
      scans_of_accepts hsees (uncut_of_space format' rest rfl) h
    refine ⟨rest ++ [32], u, ?_, ?_, hmatch⟩
    · cases rest with
      | nil => rfl
      | cons b rest => exact hspace
    · rw [hu.1]
      simp

/-! ## Full matches -/

theorem acceptsDerived_of_readsWhole (h : ReadsWhole format input) :
    AcceptsDerived format input := by
  intro beyond
  have hsees := sees_input input beyond
  by_cases hcut : Uncut format input
  · constructor
    · rintro ⟨values, haccepts⟩
      obtain ⟨t, -, hscan, -⟩ := scans_of_accepts hsees hcut haccepts
      obtain rfl := h.leftover t hscan
      exact hscan.derives .done
    · intro hderives
      exact accepts_of_scans hsees hcut (h.longest hderives) rfl id
  · simp only [Uncut, not_forall, not_not] at hcut
    obtain ⟨format', hcut⟩ := hcut
    constructor
    · rintro ⟨values, haccepts⟩
      exact absurd (fitsSpace_of_accepted hcut haccepts) (h.cut format' hcut)
    · intro hderives
      have hmatch := hcut.through (h.longest hderives)
      exact absurd (fitsSpace_of_nil hmatch) (h.cut format' hcut)

theorem readsWhole_of_acceptsDerived (h : AcceptsDerived format input) :
    ReadsWhole format input where
  leftover rest hscan := by
    by_contra hne
    have hderives := (h []).mp
      (accepts_of_scans (sees_input input []) (hscan.uncut hne) hscan rfl id)
    exact hne (hderives.nothing_left hscan List.suffix_rfl)
  longest hderives := by
    obtain ⟨values, haccepts⟩ := (h []).mpr hderives
    have hcut : Uncut format input := by
      intro format' hcut
      rw [vsnscanf_cut_none hcut] at haccepts
      cases haccepts
    obtain ⟨t, -, hscan, -⟩ := scans_of_accepts (sees_input input []) hcut haccepts
    obtain rfl := hderives.nothing_left hscan List.suffix_rfl
    exact hscan
  cut format' hcut hfits := by
    obtain ⟨beyond, values, haccepts⟩ := exists_accepted hcut hfits
    obtain ⟨values', hempty⟩ := (h []).mpr ((h beyond).mp ⟨values, haccepts⟩)
    rw [vsnscanf_cut_none hcut] at hempty
    cases hempty

/-- The inputs on which the return value says whether the whole input matches. -/
theorem acceptsDerived_iff (format input : List UInt8) :
    AcceptsDerived format input ↔ ReadsWhole format input :=
  ⟨readsWhole_of_acceptsDerived, acceptsDerived_of_readsWhole⟩

/-- `osppeer -t 10.0.0.1:80x` is taken for an address with a port. -/
theorem trailingByte_not_acceptsDerived :
    ¬ AcceptsDerived (ascii "%I:%d") (ascii "10.0.0.1:80x") := by
  intro h
  have haddress : Takes .address (ascii "10.0.0.1:80x") (ascii ":80x") :=
    (Directive.read_iff 0 0 _).mp ⟨_, rfl⟩
  have hcolon : Takes (.literal 58) (ascii ":80x") (ascii "80x") :=
    (Directive.read_iff 0 0 _).mp ⟨_, rfl⟩
  have hport : Takes .integer (ascii "80x") (ascii "x") :=
    (Directive.read_iff 0 0 _).mp ⟨_, rfl⟩
  have hscan : Scans (ascii "%I:%d") (ascii "10.0.0.1:80x") [] (ascii "x") :=
    .step rfl haddress (.step rfl hcolon (.step rfl hport .refl))
  exact absurd ((readsWhole_of_acceptsDerived h).leftover _ hscan) (by decide)

end Cs111Labs.Peer
