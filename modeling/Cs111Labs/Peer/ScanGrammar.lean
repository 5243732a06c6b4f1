import Cs111Labs.Peer.RoundTrip

/-!
# The grammar of scanned messages

A format is a sequence of parts, and each part stands for some texts.  A text is
derived from a format if it is put together from texts that the parts stand for.
The scanner takes for each part the longest text that it can.
-/

namespace Cs111Labs.Peer

/-- A part of a format. -/
inductive Directive where
  | string
  | address
  | integer
  | count
  | space
  | literal (b : UInt8)
  deriving DecidableEq, Repr

/-- The first part, and the format behind it. -/
def directive : List UInt8 → Option (Directive × List UInt8)
  | [] => none
  | percent :: letterS :: format => some (.string, format)
  | percent :: letterI :: format => some (.address, format)
  | percent :: letterD :: format => some (.integer, format)
  | percent :: letterN :: format => some (.count, format)
  | percent :: percent :: format => some (.literal percent, format)
  | b :: format =>
      if isspace b then some (.space, format.dropWhile isspace) else some (.literal b, format)

def minus : UInt8 := 45

/-! ## Texts -/

structure Numeral (u : List UInt8) : Prop where
  ne_nil : u ≠ []
  digit : ∀ c ∈ u, isdigit c = true

def numeralValue (u : List UInt8) : Nat := readDigits 0 (u.map fun c => c.toNat - 48)

/-- Numbers up to 255 with dots between them. -/
inductive Octets : Nat → List UInt8 → Prop
  | last {u : List UInt8} (hu : Numeral u) (hle : numeralValue u ≤ 255) : Octets 1 u
  | more {n : Nat} {u w : List UInt8} (hu : Numeral u) (hle : numeralValue u ≤ 255)
      (hw : Octets (n + 1) w) : Octets (n + 2) (u ++ dot :: w)

namespace Directive

/-- The texts that a part stands for. -/
def Covers : Directive → List UInt8 → Prop
  | string, u => ∀ c ∈ u, isspace c = false
  | address, u => Octets 4 u
  | integer, u => Numeral u ∨ ∃ v, u = minus :: v ∧ Numeral v
  | count, u => u = []
  | space, u => u ≠ [] ∧ ∀ c ∈ u, isspace c = true
  | literal b, u => u = [b]

/-- No byte of `s` goes on with the text of the part. -/
def Ends : Directive → List UInt8 → Prop
  | string, s => ∀ c ∈ s.head?, isspace c = true
  | address, s | integer, s => ∀ c ∈ s.head?, isdigit c = false
  | space, s => ∀ c ∈ s.head?, isspace c = false
  | count, _ | literal _, _ => True

end Directive

/-- The greatest number that the loop of `%d` reads. -/
def greatestRead : Nat := 2147483637

/-- The scanner takes the text of a part off `s`. -/
def Takes (d : Directive) (s s' : List UInt8) : Prop :=
  ∃ u, s = u ++ s' ∧ d.Covers u ∧ d.Ends s' ∧
    (d = .integer → Numeral u ∧ numeralValue u ≤ greatestRead)

/-- The whole text is put together from what the parts stand for; a `%s` is a
maximal run. -/
inductive Derives : List UInt8 → List UInt8 → Prop
  | done : Derives [] []
  | part {format format' u s : List UInt8} {d : Directive}
      (hd : directive format = some (d, format')) (hu : d.Covers u)
      (hmax : d = .string → d.Ends s) (h : Derives format' s) : Derives format (u ++ s)

/-- The scanner gets from the format and the text to a later part and text. -/
inductive Scans : List UInt8 → List UInt8 → List UInt8 → List UInt8 → Prop
  | refl {format s : List UInt8} : Scans format s format s
  | step {format format' format'' s s' s'' : List UInt8} {d : Directive}
      (hd : directive format = some (d, format')) (ht : Takes d s s')
      (h : Scans format' s' format'' s'') : Scans format s format'' s''

/-! ## The scanner gets farthest -/

variable {d : Directive} {format u v w s s' t t' : List UInt8}

theorem Takes.suffix (h : Takes d s s') : s' <:+ s := by
  obtain ⟨u, rfl, -⟩ := h
  exact List.suffix_append u s'

theorem Octets.count_dot {n : Nat} (h : Octets n u) : u.count dot + 1 = n := by
  have hdigits : ∀ {v}, Numeral v → v.count dot = 0 := by
    intro v hv
    rw [List.count_eq_zero]
    intro hmem
    exact absurd (hv.digit dot hmem) (by decide)
  induction h with
  | last hu _ => rw [hdigits hu]
  | more hu _ _ ih =>
      rw [List.count_append, hdigits hu, List.count_cons_self]
      omega

theorem Octets.digit_or_dot {n : Nat} (h : Octets n u) {c : UInt8} (hc : c ∈ u) :
    isdigit c = true ∨ c = dot := by
  induction h with
  | last hu _ => exact .inl (hu.digit c hc)
  | more hu _ _ ih =>
      rcases List.mem_append.mp hc with hc | hc
      · exact .inl (hu.digit c hc)
      · rcases List.mem_cons.mp hc with hdot | hc
        · exact .inr hdot
        · exact ih hc

/-- What the scanner takes cannot be followed by more of the part's own text. -/
theorem Directive.no_more {c : UInt8} {x : List UInt8} (hu : d.Covers (w ++ (v ++ c :: x)))
    (hv : d.Covers v) (hint : d = .integer → Numeral v) (hends : d.Ends (c :: x ++ s)) :
    False := by
  have hc : c ∈ w ++ (v ++ c :: x) := by simp
  cases d with
  | string =>
      have hspace : isspace c = true := hends c rfl
      rw [hu c hc] at hspace
      cases hspace
  | address =>
      have hdigit : isdigit c = false := hends c rfl
      rcases Octets.digit_or_dot hu hc with hyes | rfl
      · rw [hdigit] at hyes
        cases hyes
      · have hall := Octets.count_dot hu
        have hown := Octets.count_dot hv
        simp only [List.count_append, List.count_cons_self] at hall
        omega
  | integer =>
      have hdigit : isdigit c = false := hends c rfl
      rcases hu with hu | ⟨z, hz, hu⟩
      · rw [hu.digit c hc] at hdigit
        cases hdigit
      · have htail : c ∈ z := by
          have hne := (hint rfl).ne_nil
          cases w with
          | nil =>
              obtain ⟨b, v, rfl⟩ := List.exists_cons_of_ne_nil hne
              obtain rfl := (List.cons.inj hz).2
              simp
          | cons b w =>
              obtain rfl := (List.cons.inj hz).2
              simp
        rw [hu.digit c htail] at hdigit
        cases hdigit
  | count =>
      change w ++ (v ++ c :: x) = [] at hu
      simp at hu
  | space =>
      have hspace : isspace c = false := hends c rfl
      rw [hu.2 c hc] at hspace
      cases hspace
  | literal b =>
      have hlength := congrArg List.length (show w ++ (v ++ c :: x) = [b] from hu)
      have hown := congrArg List.length (show v = [b] from hv)
      simp at hlength hown
      omega

/-- A text of the part that starts earlier does not end later. -/
theorem Takes.farthest (ht : Takes d t t') (hu : d.Covers u) (hmax : d = .string → d.Ends s)
    (hsuffix : t <:+ u ++ s) : t' <:+ s := by
  obtain ⟨w, hw⟩ := hsuffix
  rcases List.append_eq_append_iff.mp hw with ⟨a, rfl, rfl⟩ | ⟨a, rfl, rfl⟩
  · obtain ⟨v, hv, hcovers, hends, hint⟩ := ht
    rcases List.append_eq_append_iff.mp hv.symm with ⟨x, rfl, rfl⟩ | ⟨x, rfl, rfl⟩
    · cases x with
      | nil => exact List.suffix_rfl
      | cons c x => exact (Directive.no_more hu hcovers (fun hd => (hint hd).1) hends).elim
    · exact List.suffix_append x t'
  · exact ht.suffix.trans (List.suffix_append a t)

theorem Takes.unique (h : Takes d s t) (h' : Takes d s t') : t = t' := by
  have hsuffix : ∀ {x y}, Takes d s x → Takes d s y → x <:+ y := by
    rintro x y hx ⟨u, rfl, hcovers, hends, -⟩
    exact hx.farthest hcovers (fun _ => hends) List.suffix_rfl
  exact (hsuffix h h').eq_of_length_le (hsuffix h' h).length_le

theorem Scans.derives (h : Scans format s format' s') (hdone : Derives format' s') :
    Derives format s := by
  induction h with
  | refl => exact hdone
  | step hd ht _ ih =>
      obtain ⟨u, rfl, hcovers, hends, -⟩ := ht
      exact .part hd hcovers (fun _ => hends) (ih hdone)

theorem Scans.suffix (h : Scans format s format' s') : s' <:+ s := by
  induction h with
  | refl => exact List.suffix_rfl
  | step _ ht _ ih => exact ih.trans ht.suffix

/-- A scan to the end of the format goes through each point that is reached. -/
theorem Scans.through (h : Scans format s format' s') (hall : Scans format s [] t) :
    Scans format' s' [] t := by
  induction h with
  | refl => exact hall
  | step hd ht _ ih =>
      cases hall with
      | refl => cases hd
      | step hd' ht' hall' =>
          obtain ⟨rfl, rfl⟩ := Prod.mk.inj (Option.some.inj (hd.symm.trans hd'))
          obtain rfl := ht.unique ht'
          exact ih hall'

/-- If the whole text is derived, the scanner leaves nothing over. -/
theorem Derives.nothing_left (h : Derives format s) (hscan : Scans format t [] t')
    (hsuffix : t <:+ s) : t' = [] := by
  induction h generalizing t with
  | done =>
      cases hscan with
      | refl => exact List.suffix_nil.mp hsuffix
      | step hd => cases hd
  | part hd hu hmax _ ih =>
      cases hscan with
      | refl => cases hd
      | step hd' ht hscan' =>
          obtain ⟨rfl, rfl⟩ := Prod.mk.inj (Option.some.inj (hd.symm.trans hd'))
          exact ih hscan' (ht.farthest hu hmax hsuffix)

/-! ## Quoted bytes at the end -/

/-- A quoted byte may begin at the end of the text: the last byte is `%`, or the last
two are `%` and a hexadecimal digit. -/
def cut : List UInt8 → Bool
  | [] => false
  | c :: rest =>
      if isspace c then false
      else if c = percent then
        match rest with
        | [] => true
        | h :: rest' =>
            if isxdigit h then
              match rest' with
              | [] => true
              | l :: rest'' => if isxdigit l then cut rest'' else cut (h :: l :: rest'')
            else cut (h :: rest')
      else cut rest

/-- There is no white space before the cut. -/
theorem not_isspace_of_cut (h : cut s = true) : ∀ c ∈ s, isspace c = false := by
  have hcons : ∀ {c : UInt8} {s : List UInt8}, isspace c = false →
      (∀ b ∈ s, isspace b = false) → ∀ b ∈ c :: s, isspace b = false := by
    intro c s hc hs
    exact List.forall_mem_cons.mpr ⟨hc, hs⟩
  have hpercent : isspace percent = false := rfl
  fun_induction cut s with
  | case1 => cases h
  | case2 => cases h
  | case3 => exact hcons hpercent nofun
  | case4 d hdigit => exact hcons hpercent (hcons (not_isspace_of_isxdigit d hdigit) nofun)
  | case5 d hd l rest hl _ ih =>
      exact hcons hpercent (hcons (not_isspace_of_isxdigit d hd)
        (hcons (not_isspace_of_isxdigit l hl) (ih h)))
  | case6 d hd l rest hl _ ih => exact hcons hpercent (ih h)
  | case7 d rest hd _ ih => exact hcons hpercent (ih h)
  | case8 c rest hc _ ih => exact hcons (Bool.eq_false_iff.mpr hc) (ih h)

/-- A text with white space at its end is not cut. -/
theorem not_cut_of_space (s : List UInt8) {c : UInt8} (hc : isspace c = true) :
    cut (s ++ [c]) = false := by
  cases hcut : cut (s ++ [c]) with
  | false => rfl
  | true =>
      rw [not_isspace_of_cut hcut c (by simp)] at hc
      cases hc

theorem Takes.of_cut (h : cut s = true) (ht : Takes .string s s') : s' = [] := by
  obtain ⟨u, rfl, -, hends, -⟩ := ht
  cases s' with
  | nil => rfl
  | cons c s' =>
      have hspace : isspace c = true := hends c rfl
      rw [not_isspace_of_cut h c (by simp)] at hspace
      cases hspace

theorem takes_of_cut (h : cut s = true) : Takes .string s [] :=
  ⟨s, (List.append_nil s).symm, not_isspace_of_cut h, nofun, nofun⟩

end Cs111Labs.Peer
