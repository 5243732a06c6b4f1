import Cs111Labs.Peer.Download
import Cs111Labs.Peer.FullMatches

/-!
# The bounds of the scanner

`osp2p_vsnscanf` is given `len` bytes that may stand before others.  Only a quoted
byte at the end of the input takes it past them.
-/

namespace Cs111Labs.Peer

variable {s s' t format format' beyond input : List UInt8} {c c' : Cursor} {len : Nat}
  {values : List Value} {d : Directive} {v : View} {left : Int}

/-- The scanner gets from one part of the format and cursor to a later one. -/
inductive Visits (len : Nat) : List UInt8 → Cursor → List UInt8 → Cursor → Prop
  | refl {format : List UInt8} {c : Cursor} : Visits len format c format c
  | step {format format' format'' : List UInt8} {c c' c'' : Cursor} {d : Directive}
      {value : Option Value} (hd : directive format = some (d, format'))
      (hscan : d.scan len c = .found value c') (h : Visits len format' c' format'' c'') :
      Visits len format c format'' c''

/-- The scanner stays inside the input. -/
structure StaysInside (format input : List UInt8) : Prop where
  /-- It reads the input only: with no memory behind it, and whatever is there. -/
  reads : ∀ beyond, ∃ result, vsnscanf input input.length format = some result ∧
    vsnscanf (input ++ beyond) input.length format = some result
  position : ∀ beyond format' c,
    Visits input.length format ⟨input ++ beyond, input.length⟩ format' c → 0 ≤ c.left
  /-- A `%s` stores no more bytes than it consumes, and a NUL. -/
  stores : ∀ beyond g format' c name c',
    Visits input.length format ⟨input ++ beyond, input.length⟩ g c →
      directive g = some (.string, format') →
      Directive.string.scan input.length c = .found (some (.string name)) c' →
      name.length ≤ c.left - c'.left
  /-- The names in a request that is not too long fit. -/
  names : input.length < filenamesiz - 12 → ∀ beyond ret values name,
    vsnscanf (input ++ beyond) input.length format = some (ret, values) →
      .string name ∈ values → name.length + 1 ≤ filenamesiz

/-! ## What a `%s` stores -/

theorem store_eq_found {r : Scanned (List UInt8)} {b : UInt8} {name : List UInt8}
    (h : r.store b = .found name c) : ∃ name', r = .found name' c ∧ name = b :: name' := by
  cases r with
  | found name' c' =>
      cases h
      exact ⟨name', rfl, rfl⟩
  | mismatch => cases h
  | outside => cases h

theorem store_le {r : Scanned (List UInt8)} {b : UInt8} {name : List UInt8} {left' : Int}
    (h : r.store b = .found name c) (hlt : left' < left)
    (ih : ∀ {name'}, r = .found name' c → (name'.length : Int) ≤ left' - c.left) :
    (name.length : Int) ≤ left - c.left := by
  obtain ⟨name', hname, rfl⟩ := store_eq_found h
  have hle := ih hname
  simp only [List.length_cons]
  omega

theorem scanString_stores {m name : List UInt8} (h : scanString m left = .found name c) :
    (name.length : Int) ≤ left - c.left := by
  fun_induction scanString m left generalizing name with
  | case1 =>
      cases h
      simp
  | case2 => cases h
  | case3 =>
      cases h
      simp
  | case4 => cases h
  | case5 => cases h
  | case6 _ _ _ _ _ _ _ ih => exact store_le h (Int.sub_lt_self _ (by decide)) ih
  | case7 _ _ _ _ _ _ _ ih => exact store_le h (Int.sub_lt_self _ (by decide)) ih
  | case8 _ _ _ _ _ ih => exact store_le h (Int.sub_lt_self _ (by decide)) ih
  | case9 _ _ _ _ _ ih => exact store_le h (Int.sub_lt_self _ (by decide)) ih

theorem map_eq_found {α β : Type} {f : α → β} {r : Scanned α} {b : β}
    (h : r.map f = .found b c) : ∃ a, r = .found a c ∧ b = f a := by
  cases r with
  | found a c' =>
      cases h
      exact ⟨a, rfl, rfl⟩
  | mismatch => cases h
  | outside => cases h

theorem Directive.scan_stores {name : List UInt8}
    (h : d.scan len c = .found (some (.string name)) c') : name.length ≤ c.left - c'.left := by
  cases d with
  | string =>
      obtain ⟨name', hname, heq⟩ := map_eq_found h
      cases heq
      exact scanString_stores hname
  | address =>
      obtain ⟨a, -, heq⟩ := map_eq_found h
      cases heq
  | integer =>
      obtain ⟨i, -, heq⟩ := map_eq_found h
      cases heq
  | count => cases h
  | space =>
      obtain ⟨_, -, heq⟩ := map_eq_found h
      cases heq
  | literal b =>
      obtain ⟨_, -, heq⟩ := map_eq_found h
      cases heq

/-! ## Runs without a cut -/

theorem Visits.sees (h : Visits len format c format' c') (hsees : Sees v s c)
    (hcut : Uncut format s) : ∃ s', Sees v s' c' := by
  induction h generalizing s with
  | refl => exact ⟨s, hsees⟩
  | step hd hscan _ ih =>
      obtain ⟨s', ht, hs'⟩ := Directive.scan_found hsees (hcut.here hd) hscan
      exact ih hs' (hcut.next hd ht)

/-- One part does the same whatever is behind the text. -/
theorem Directive.scan_inside (len : Nat) {beyond' : List UInt8} (h : Sees (.inside beyond) s c)
    (h' : Sees (.inside beyond') s c') (hcut : d = .string → cut s = false) :
    (∃ value t c₁ c₁', d.scan len c = .found value c₁ ∧ d.scan len c' = .found value c₁' ∧
      Takes d s t ∧ Sees (.inside beyond) t c₁ ∧ Sees (.inside beyond') t c₁') ∨
      d.scan len c = .mismatch ∧ d.scan len c' = .mismatch := by
  have hagrees := d.scan_agrees len h hcut
  have hagrees' := d.scan_agrees len h' hcut
  rw [h'.2, ← h.2] at hagrees'
  cases hread : d.read len c.left s with
  | none =>
      rw [hread] at hagrees hagrees'
      exact .inr ⟨hagrees.resolve_left fun hout => hout.2,
        hagrees'.resolve_left fun hout => hout.2⟩
  | some p =>
      rw [hread] at hagrees hagrees'
      obtain ⟨c₁, hfound, hc₁⟩ := hagrees.resolve_left fun hout => hout.2
      obtain ⟨c₁', hfound', hc₁'⟩ := hagrees'.resolve_left fun hout => hout.2
      exact .inl ⟨p.1, p.2, c₁, c₁', hfound, hfound',
        (d.read_iff len c.left).mp ⟨p.1, hread⟩, hc₁, hc₁'⟩

theorem run_inside {beyond' : List UInt8} (h : Sees (.inside beyond) s c)
    (h' : Sees (.inside beyond') s c') (hcut : Uncut format s) :
    ∃ result, vsnscanfFrom len format c values = some result ∧
      vsnscanfFrom len format c' values = some result := by
  induction format using format_induction generalizing s c c' values with
  | done =>
      rw [vsnscanfFrom_eq, vsnscanfFrom_eq len [] c']
      exact ⟨_, rfl, rfl⟩
  | @step format d format' hd ih =>
      rw [vsnscanfFrom_eq, vsnscanfFrom_eq len format c', hd]
      rcases d.scan_inside len h h' (hcut.here hd) with
        ⟨value, t, c₁, c₁', hfound, hfound', ht, hc₁, hc₁'⟩ | ⟨hno, hno'⟩
      · simp only [hfound, hfound']
        exact ih hc₁ hc₁' (hcut.next hd ht)
      · simp only [hno, hno']
        exact ⟨_, rfl, rfl⟩

/-- What a run stores was stored before, or is no longer than the text. -/
theorem run_stores {ret : Int} {values' : List Value} {name : List UInt8}
    (h : Sees (.inside beyond) s c) (hcut : Uncut format s)
    (hrun : vsnscanfFrom len format c values = some (ret, values'))
    (hname : .string name ∈ values') : .string name ∈ values ∨ name.length ≤ s.length := by
  induction format using format_induction generalizing s c values with
  | done =>
      rw [vsnscanfFrom_eq] at hrun
      cases hrun
      exact .inl hname
  | @step format d format' hd ih =>
      rw [vsnscanfFrom_eq, hd] at hrun
      cases hscan : d.scan len c with
      | mismatch =>
          simp only [hscan] at hrun
          cases hrun
          exact .inl hname
      | outside =>
          simp only [hscan] at hrun
          cases hrun
      | found value c' =>
          simp only [hscan] at hrun
          obtain ⟨s', ht, hs'⟩ := Directive.scan_found h (hcut.here hd) hscan
          have hle := ht.suffix.length_le
          rcases ih hs' (hcut.next hd ht) hrun with hmem | hlen
          · rcases List.mem_append.mp hmem with hold | hnew
            · exact .inl hold
            · obtain rfl := Option.mem_toList.mp hnew
              have hstores := Directive.scan_stores hscan
              have hleft := h.2
              have hleft' := hs'.2
              exact .inr (by omega)
          · exact .inr (hlen.trans hle)

/-! ## The bounds -/

theorem staysInside_of_uncut (h : Uncut format input) : StaysInside format input where
  reads beyond := by
    have hempty : Sees (.inside []) input ⟨input, input.length⟩ :=
      ⟨(List.append_nil input).symm, rfl⟩
    exact run_inside hempty (sees_input input beyond) h
  position beyond format' c hvisits := by
    obtain ⟨s, hs⟩ := hvisits.sees (sees_input input beyond) h
    rw [hs.2]
    exact Int.natCast_nonneg _
  stores beyond g format' c name c' _ _ hscan := Directive.scan_stores hscan
  names hlen beyond ret values name hrun hname := by
    rcases run_stores (sees_input input beyond) h hrun hname with ⟨⟨⟩⟩ | hle
    unfold filenamesiz at *
    omega

/-- The scanner stays inside the input exactly if no `%s` reaches a quoted byte that
begins in the last two bytes. -/
theorem staysInside_iff (format input : List UInt8) :
    StaysInside format input ↔ Uncut format input := by
  refine ⟨fun h format' hcut => ?_, staysInside_of_uncut⟩
  obtain ⟨result, hresult, -⟩ := h.reads []
  have hnone := vsnscanf_cut_none hcut
  rw [List.append_nil, hresult] at hnone
  cases hnone

/-- A request that ends in `%`, when the connection is closed behind it. -/
theorem cutRequest_not_staysInside :
    ¬ StaysInside (ascii "GET %s OSP2P\n") (ascii "GET a%") := by
  intro h
  have hword : Scans (ascii "GET %s OSP2P\n") (ascii "GET a%") (ascii "%s OSP2P\n")
      (ascii "a%") :=
    .step rfl ((Directive.read_iff 0 0 (.literal 71)).mp ⟨_, rfl⟩)
      (.step rfl ((Directive.read_iff 0 0 (.literal 69)).mp ⟨_, rfl⟩)
        (.step rfl ((Directive.read_iff 0 0 (.literal 84)).mp ⟨_, rfl⟩)
          (.step rfl ((Directive.read_iff 0 0 .space).mp ⟨_, rfl⟩) .refl)))
  have hcut : CutAt (ascii "GET %s OSP2P\n") (ascii "GET a%") (ascii " OSP2P\n") :=
    ⟨_, _, hword, rfl, rfl⟩
  obtain ⟨result, hresult, -⟩ := h.reads []
  have hnone := vsnscanf_cut_none hcut
  rw [List.append_nil, hresult] at hnone
  cases hnone

end Cs111Labs.Peer
