import Cs111Labs.Peer.ScanSteps

/-!
# The scanner and the grammar

On a text each part of the scanner succeeds exactly if the grammar lets the part
take a text there, and leaves the same over.
-/

namespace Cs111Labs.Peer

variable {s s' u : List UInt8} {b : UInt8}

/-- The digits of a text. -/
def digitValues (u : List UInt8) : List Nat := u.map fun c => c.toNat - 48

theorem toNat_of_isdigit (hb : isdigit b = true) : 48 ≤ b.toNat ∧ b.toNat ≤ 57 := by
  simpa [isdigit, UInt8.le_iff_toNat_le] using hb

theorem peek_eq_false {test : UInt8 → Bool} :
    peek test s = false ↔ ∀ c ∈ s.head?, test c = false := by
  cases s with
  | nil => simp [peek]
  | cons b s => simp [peek]

/-! ## `%d` -/

theorem digitsGo_iff {x : Nat} (hb : isdigit b = true) :
    digitsGo x b = true ↔ 10 * x + (b.toNat - 48) ≤ greatestRead := by
  obtain ⟨hlow, hhigh⟩ := toNat_of_isdigit hb
  rw [digitsGo, hb, Bool.true_and, decide_eq_true_iff]
  unfold intMax greatestRead
  rw [Int.tdiv_eq_ediv_of_nonneg (by omega)]
  omega

theorem digitsNext_eq {x : Nat} (hb : isdigit b = true) :
    digitsNext x b = ((10 * x + (b.toNat - 48) : Nat) : Int) := by
  obtain ⟨hlow, hhigh⟩ := toNat_of_isdigit hb
  unfold digitsNext
  omega

theorem spanWhile_digits_sound (s : List UInt8) {x : Nat} (hx : x ≤ greatestRead) :
    ∃ u s', s = u ++ s' ∧ (∀ c ∈ u, isdigit c = true) ∧
      spanWhile digitsGo digitsNext s x = ((readDigits x (digitValues u) : Int), s') ∧
      readDigits x (digitValues u) ≤ greatestRead := by
  induction s generalizing x with
  | nil => exact ⟨[], [], rfl, List.forall_mem_nil _, rfl, hx⟩
  | cons b s ih =>
      by_cases hgoes : digitsGo x b = true
      · have hb : isdigit b = true := by
          rw [digitsGo, Bool.and_eq_true] at hgoes
          exact hgoes.1
        obtain ⟨u, s', rfl, hu, hspan, hle⟩ := ih ((digitsGo_iff hb).mp hgoes)
        refine ⟨b :: u, s', rfl, List.forall_mem_cons.mpr ⟨hb, hu⟩, ?_, hle⟩
        rw [spanWhile, if_pos hgoes, digitsNext_eq hb, hspan]
        rfl
      · exact ⟨[], b :: s, rfl, List.forall_mem_nil _, by rw [spanWhile, if_neg hgoes]; rfl, hx⟩

theorem spanWhile_digits_complete {x : Nat} (hu : ∀ c ∈ u, isdigit c = true)
    (hle : readDigits x (digitValues u) ≤ greatestRead) (hends : peek isdigit s' = false) :
    spanWhile digitsGo digitsNext (u ++ s') x = ((readDigits x (digitValues u) : Int), s') := by
  induction u generalizing x with
  | nil =>
      cases s' with
      | nil => rfl
      | cons b s' =>
          have hstop : ¬ digitsGo x b = true := by
            rw [peek] at hends
            simp [digitsGo, hends]
          rw [List.nil_append, spanWhile, if_neg hstop]
          rfl
  | cons b u ih =>
      obtain ⟨hb, hu⟩ := List.forall_mem_cons.mp hu
      have hstep : 10 * x + (b.toNat - 48) ≤ greatestRead := (le_readDigits _ _).trans hle
      rw [List.cons_append, spanWhile, if_pos ((digitsGo_iff hb).mpr hstep), digitsNext_eq hb]
      exact ih hu hle

theorem readInt_iff : (∃ a, readInt s = some (a, s')) ↔ Takes .integer s s' := by
  constructor
  · rintro ⟨a, hread⟩
    rw [readInt] at hread
    split_ifs at hread with hpeek
    obtain ⟨hfirst, hlast⟩ := hpeek
    obtain ⟨u, t, rfl, hu, hspan, hle⟩ :=
      spanWhile_digits_sound s (Nat.zero_le _ : 0 ≤ greatestRead)
    have ht : t = s' := by
      rw [spanDigits] at hread
      rw [show spanWhile digitsGo digitsNext (u ++ t) 0 = _ from hspan] at hread
      exact congrArg Prod.snd (Option.some.inj hread)
    subst ht
    have hend : peek isdigit t = false := by
      rw [spanDigits, show spanWhile digitsGo digitsNext (u ++ t) 0 = _ from hspan] at hlast
      exact hlast
    have hne : u ≠ [] := by
      rintro rfl
      rw [List.nil_append, hend] at hfirst
      cases hfirst
    exact ⟨u, rfl, .inl ⟨hne, hu⟩, peek_eq_false.mp hend, fun _ => ⟨⟨hne, hu⟩, hle⟩⟩
  · rintro ⟨u, rfl, -, hends, hint⟩
    obtain ⟨⟨hne, hu⟩, hle⟩ := hint rfl
    have hend : peek isdigit s' = false := peek_eq_false.mpr hends
    have hspan : spanDigits (u ++ s') = ((readDigits 0 (digitValues u) : Int), s') :=
      spanWhile_digits_complete hu hle hend
    have hfirst : peek isdigit (u ++ s') = true := by
      obtain ⟨b, u, rfl⟩ := List.exists_cons_of_ne_nil hne
      exact hu b (by simp)
    exact ⟨_, by rw [readInt, hspan, if_pos ⟨hfirst, hend⟩]⟩

/-! ## `%I` -/

theorem octetGoes_iff {x : Int} (hx : x ≤ 255) : octetGoes x b = isdigit b := by
  simp [octetGoes, hx]

theorem octetNext_eq {x : Nat} (hb : isdigit b = true) :
    octetNext x b = ((10 * x + (b.toNat - 48) : Nat) : Int) := by
  obtain ⟨hlow, hhigh⟩ := toNat_of_isdigit hb
  unfold octetNext
  rw [if_neg (by omega)]
  omega

theorem octetNext_first (hb : isdigit b = true) :
    octetNext (-1) b = ((b.toNat - 48 : Nat) : Int) := by
  obtain ⟨hlow, hhigh⟩ := toNat_of_isdigit hb
  unfold octetNext
  rw [if_pos (by decide)]
  omega

theorem spanWhile_octet_sound (s : List UInt8) {x : Nat}
    (hle : (spanWhile octetGoes octetNext s x).1 ≤ 255) :
    ∃ u s', s = u ++ s' ∧ (∀ c ∈ u, isdigit c = true) ∧ peek isdigit s' = false ∧
      spanWhile octetGoes octetNext s x = ((readDigits x (digitValues u) : Int), s') := by
  induction s generalizing x with
  | nil => exact ⟨[], [], rfl, List.forall_mem_nil _, rfl, rfl⟩
  | cons b s ih =>
      by_cases hgoes : octetGoes x b = true
      · have hb : isdigit b = true := by
          rw [octetGoes, Bool.and_eq_true] at hgoes
          exact hgoes.1
        rw [spanWhile, if_pos hgoes, octetNext_eq hb] at hle ⊢
        obtain ⟨u, s', rfl, hu, hends, hspan⟩ := ih hle
        exact ⟨b :: u, s', rfl, List.forall_mem_cons.mpr ⟨hb, hu⟩, hends, hspan⟩
      · rw [spanWhile, if_neg hgoes] at hle ⊢
        refine ⟨[], b :: s, rfl, List.forall_mem_nil _, ?_, rfl⟩
        rw [octetGoes_iff hle] at hgoes
        exact Bool.eq_false_iff.mpr hgoes

theorem spanWhile_octet_complete {x : Nat} (hu : ∀ c ∈ u, isdigit c = true)
    (hle : readDigits x (digitValues u) ≤ 255) (hends : peek isdigit s' = false) :
    spanWhile octetGoes octetNext (u ++ s') x = ((readDigits x (digitValues u) : Int), s') := by
  induction u generalizing x with
  | nil =>
      cases s' with
      | nil => rfl
      | cons b s' =>
          have hstop : ¬ octetGoes x b = true := by
            rw [peek] at hends
            simp [octetGoes, hends]
          rw [List.nil_append, spanWhile, if_neg hstop]
          rfl
  | cons b u ih =>
      obtain ⟨hb, hu⟩ := List.forall_mem_cons.mp hu
      have hx : x ≤ 255 := (le_readDigits x (digitValues (b :: u))).trans hle
      have hgoes : octetGoes x b = true := by rw [octetGoes_iff (by omega), hb]
      rw [List.cons_append, spanWhile, if_pos hgoes, octetNext_eq hb]
      exact ih hu hle

/-- One component of an address. -/
theorem spanOctet_iff :
    (0 ≤ (spanOctet s).1 ∧ (spanOctet s).1 ≤ 255 ∧ (spanOctet s).2 = s') ↔
      ∃ u, s = u ++ s' ∧ Numeral u ∧ numeralValue u ≤ 255 ∧ peek isdigit s' = false := by
  constructor
  · rintro ⟨hpos, hle, rfl⟩
    cases s with
    | nil => exact absurd hpos (by decide)
    | cons b s =>
        by_cases hgoes : octetGoes (-1) b = true
        · have hb : isdigit b = true := by rwa [octetGoes_iff (by decide)] at hgoes
          rw [spanOctet, spanWhile, if_pos hgoes, octetNext_first hb] at hle ⊢
          obtain ⟨u, s', rfl, hu, hends, hspan⟩ := spanWhile_octet_sound s hle
          rw [hspan] at hle ⊢
          have hvalue : numeralValue (b :: u) = readDigits (b.toNat - 48) (digitValues u) := by
            simp [numeralValue, readDigits, digitValues]
          refine ⟨b :: u, rfl, ⟨List.cons_ne_nil b u, List.forall_mem_cons.mpr ⟨hb, hu⟩⟩, ?_, hends⟩
          rw [hvalue]
          dsimp only at hle
          omega
        · rw [spanOctet, spanWhile, if_neg hgoes] at hpos
          dsimp only at hpos
          omega
  · rintro ⟨u, rfl, hu, hle, hends⟩
    obtain ⟨b, u, rfl⟩ := List.exists_cons_of_ne_nil hu.ne_nil
    obtain ⟨hb, hdigits⟩ := List.forall_mem_cons.mp hu.digit
    have hgoes : octetGoes (-1) b = true := by rw [octetGoes_iff (by decide), hb]
    have hvalue : readDigits (b.toNat - 48) (digitValues u) = numeralValue (b :: u) := by
      simp [numeralValue, readDigits, digitValues]
    have hspan : spanOctet (b :: u ++ s') =
        ((readDigits (b.toNat - 48) (digitValues u) : Int), s') := by
      rw [spanOctet, List.cons_append, spanWhile, if_pos hgoes, octetNext_first hb]
      exact spanWhile_octet_complete hdigits (by omega) hends
    rw [hspan]
    refine ⟨?_, ?_, rfl⟩ <;> dsimp only <;> omega

theorem readAddress_step (n : Nat) (value : BitVec 32) :
    (∃ a, readAddress (n + 1) value s = some (a, s')) ↔
      (0 ≤ (spanOctet s).1 ∧ (spanOctet s).1 ≤ 255) ∧
        if n = 0 then (spanOctet s).2 = s'
        else ∃ t, (spanOctet s).2 = dot :: t ∧
          ∃ a, readAddress n ((value <<< 8) + BitVec.ofInt 32 (spanOctet s).1) t =
            some (a, s') := by
  rw [readAddress]
  by_cases hx : (spanOctet s).1 < 0 ∨ 255 < (spanOctet s).1
  · rw [if_pos hx]
    constructor
    · rintro ⟨a, ⟨⟩⟩
    · rintro ⟨⟨_, _⟩, -⟩
      omega
  rw [if_neg hx]
  have hrange : 0 ≤ (spanOctet s).1 ∧ (spanOctet s).1 ≤ 255 := by omega
  by_cases hn : n = 0
  · simp [hn, hrange]
  dsimp only
  rw [if_neg hn, if_neg hn]
  cases hrest : (spanOctet s).2 with
  | nil => simp
  | cons b t =>
      by_cases hb : b = dot
      · simp [hb, hrange]
      · simp [hb]

theorem octets_one (h : Octets 1 u) : Numeral u ∧ numeralValue u ≤ 255 := by
  cases h with
  | last hu hle => exact ⟨hu, hle⟩

/-- The components behind the first. -/
theorem readAddress_iff (n : Nat) (value : BitVec 32) :
    (∃ a, readAddress (n + 1) value s = some (a, s')) ↔
      ∃ u, s = u ++ s' ∧ Octets (n + 1) u ∧ peek isdigit s' = false := by
  induction n generalizing value s with
  | zero =>
      rw [readAddress_step, if_pos rfl, and_assoc, spanOctet_iff]
      constructor
      · rintro ⟨u, rfl, hu, hle, hends⟩
        exact ⟨u, rfl, .last hu hle, hends⟩
      · rintro ⟨u, rfl, hoctets, hends⟩
        obtain ⟨hu, hle⟩ := octets_one hoctets
        exact ⟨u, rfl, hu, hle, hends⟩
  | succ n ih =>
      rw [readAddress_step, if_neg (Nat.succ_ne_zero n)]
      constructor
      · rintro ⟨⟨hpos, hle⟩, t, hdot, hrest⟩
        obtain ⟨u, rfl, hu, hvalue, -⟩ := spanOctet_iff.mp ⟨hpos, hle, hdot⟩
        obtain ⟨w, rfl, hw, hends⟩ := (ih _).mp hrest
        exact ⟨u ++ dot :: w, by simp, .more hu hvalue hw, hends⟩
      · rintro ⟨u, rfl, hoctets, hends⟩
        cases hoctets with
        | @more _ u w hu hle hw =>
            have hfirst : u ++ dot :: w ++ s' = u ++ dot :: (w ++ s') := by simp
            rw [hfirst]
            have hstop : peek isdigit (dot :: (w ++ s')) = false := rfl
            obtain ⟨hpos, hvalue, hdot⟩ := spanOctet_iff.mpr ⟨u, rfl, hu, hle, hstop⟩
            exact ⟨⟨hpos, hvalue⟩, w ++ s', hdot, (ih _).mpr ⟨w, rfl, hw, hends⟩⟩

/-! ## Single bytes and white space -/

theorem spanSpace_sound (s : List UInt8) :
    ∃ u, s = u ++ (spanSpace s).2 ∧ (∀ c ∈ u, isspace c = true) ∧
      Directive.space.Ends (spanSpace s).2 := by
  induction s with
  | nil => exact ⟨[], rfl, List.forall_mem_nil _, nofun⟩
  | cons b s ih =>
      by_cases hb : isspace b = true
      · obtain ⟨u, hs, hu, hends⟩ := ih
        have hspan : spanSpace (b :: s) = spanSpace s := by
          rw [spanSpace, spanWhile, if_pos hb]
          rfl
        rw [hspan]
        exact ⟨b :: u, congrArg (b :: ·) hs, List.forall_mem_cons.mpr ⟨hb, hu⟩, hends⟩
      · have hspan : spanSpace (b :: s) = ((), b :: s) := by
          rw [spanSpace, spanWhile, if_neg hb]
        rw [hspan]
        refine ⟨[], rfl, List.forall_mem_nil _, fun c hc => ?_⟩
        obtain rfl := Option.some.inj hc
        exact Bool.eq_false_iff.mpr hb

theorem takes_of_readSpace {a : Unit} (h : readSpace s = some (a, s')) : Takes .space s s' := by
  cases s with
  | nil => cases h
  | cons b s =>
      rw [readSpace, readByte] at h
      split_ifs at h with hb
      · have hs' : (spanSpace s).2 = s' := congrArg Prod.snd (Option.some.inj h)
        subst hs'
        obtain ⟨u, hs, hu, hends⟩ := spanSpace_sound s
        exact ⟨b :: u, congrArg (b :: ·) hs, ⟨List.cons_ne_nil b u, List.forall_mem_cons.mpr ⟨hb, hu⟩⟩,
          hends, fun heq => by cases heq⟩
      · cases h

theorem readByte_iff (b : UInt8) :
    (∃ a, readByte (· = b) s = some (a, s')) ↔ Takes (.literal b) s s' := by
  constructor
  · rintro ⟨a, hread⟩
    cases s with
    | nil => cases hread
    | cons c s =>
        rw [readByte] at hread
        split_ifs at hread with hc
        obtain ⟨-, rfl⟩ := Prod.mk.inj (Option.some.inj hread)
        obtain rfl := of_decide_eq_true hc
        exact ⟨[c], rfl, rfl, trivial, fun heq => by cases heq⟩
  · rintro ⟨u, rfl, hu, -, -⟩
    obtain rfl : u = [b] := hu
    exact ⟨(), by simp [readByte]⟩

/-! ## All parts -/

theorem exists_map_iff {α β : Type} (f : α → β) (p : Option (α × List UInt8)) :
    (∃ a, (p.map fun q => (f q.1, q.2)) = some (a, s')) ↔ ∃ a, p = some (a, s') := by
  constructor
  · rintro ⟨a, hmap⟩
    obtain ⟨q, rfl, hq⟩ := Option.map_eq_some_iff.mp hmap
    exact ⟨q.1, by rw [← (Prod.mk.inj hq).2]⟩
  · rintro ⟨a, rfl⟩
    exact ⟨f a, rfl⟩

/-- The scanner goes on over a part exactly if the part takes a text. -/
theorem Directive.read_iff (len : Nat) (left : Int) (d : Directive) :
    (∃ a, d.read len left s = some (a, s')) ↔ Takes d s s' := by
  cases d with
  | string =>
      constructor
      · rintro ⟨a, hread⟩
        obtain ⟨-, rfl⟩ := Prod.mk.inj (Option.some.inj hread)
        exact takes_readString s
      · intro htakes
        exact ⟨_, by rw [read, htakes.unique (takes_readString s)]⟩
  | address =>
      refine (exists_map_iff (fun a => some (Value.address a)) _).trans
        ((readAddress_iff 3 0).trans ?_)
      constructor
      · rintro ⟨u, rfl, hu, hends⟩
        exact ⟨u, rfl, hu, peek_eq_false.mp hends, nofun⟩
      · rintro ⟨u, rfl, hu, hends, -⟩
        exact ⟨u, rfl, hu, peek_eq_false.mpr hends⟩
  | integer => exact (exists_map_iff (fun i => some (Value.integer i)) _).trans readInt_iff
  | count =>
      constructor
      · rintro ⟨a, hread⟩
        obtain ⟨-, rfl⟩ := Prod.mk.inj (Option.some.inj hread)
        exact ⟨[], rfl, rfl, trivial, nofun⟩
      · rintro ⟨u, rfl, hu, -, -⟩
        obtain rfl : u = [] := hu
        exact ⟨_, rfl⟩
  | space =>
      refine (exists_map_iff (fun _ => none) _).trans ⟨fun ⟨a, hread⟩ => takes_of_readSpace hread, ?_⟩
      intro htakes
      obtain ⟨u, hs, ⟨hne, hu⟩, -⟩ := id htakes
      obtain ⟨b, u, rfl⟩ := List.exists_cons_of_ne_nil hne
      have hb : isspace b = true := hu b (by simp)
      have hread : readSpace s = some (spanSpace (u ++ s')) := by
        rw [hs, List.cons_append, readSpace, readByte, if_pos hb]
        rfl
      have hrest := (takes_of_readSpace hread).unique htakes
      exact ⟨(), hread.trans (congrArg (fun t => some ((), t)) hrest)⟩
  | literal b => exact (exists_map_iff (fun _ => none) _).trans (readByte_iff b)

end Cs111Labs.Peer
