import Cs111Labs.Peer.ScanGrammar

/-!
# What the scanner reads

The scanner works on a cursor into memory.  Here each of its parts is read off the
text that the cursor shows: the bytes up to `end_s` or, once the position is past
`end_s`, all bytes that follow.
-/

namespace Cs111Labs.Peer

/-! ## The parts of the scanner -/

def Scanned.map {α β : Type} (f : α → β) : Scanned α → Scanned β
  | .found a c => .found (f a) c
  | .mismatch => .mismatch
  | .outside => .outside

/-- The code for one part of the format: what it stores, and the new cursor. -/
def Directive.scan (len : Nat) (c : Cursor) : Directive → Scanned (Option Value)
  | .string => (scanString c.rest c.left).map fun s => some (.string s)
  | .address => (scanAddress 4 0 c).map fun a => some (.address a)
  | .integer => (scanInt c).map fun i => some (.integer i)
  | .count => .found (some (.integer (len - c.left))) c
  | .space => (scanSpace c).map fun _ => none
  | .literal b => (scanByte (· = b) c).map fun _ => none

/-- The loop of `osp2p_vsnscanf`, by the parts of the format. -/
theorem vsnscanfFrom_eq (len : Nat) (format : List UInt8) (c : Cursor) (values : List Value) :
    vsnscanfFrom len format c values =
      match directive format with
      | none => some (0, values)
      | some (d, format') =>
          match d.scan len c with
          | .found value c => vsnscanfFrom len format' c (values ++ value.toList)
          | .mismatch => some (-1, values)
          | .outside => none := by
  conv_lhs => unfold vsnscanfFrom
  split
  · rfl
  · simp only [directive, Directive.scan]
    cases scanString c.rest c.left <;> simp [Scanned.map]
  · simp only [directive, Directive.scan]
    cases scanAddress 4 0 c <;> simp [Scanned.map]
  · simp only [directive, Directive.scan]
    cases scanInt c <;> simp [Scanned.map]
  · simp only [directive, Directive.scan]
    simp
  · simp only [directive, Directive.scan]
    cases scanByte _ c <;> simp [Scanned.map]
  · rename_i b format _ _ _ _ _
    have hd : directive (b :: format) =
        if isspace b then some (.space, format.dropWhile isspace)
        else some (.literal b, format) := by
      unfold directive
      split <;> simp_all
    rw [hd]
    split_ifs with hspace
    · cases hscan : scanSpace c <;> simp [Directive.scan, hscan, Scanned.map]
    · cases hscan : scanByte (· = b) c <;> simp [Directive.scan, hscan, Scanned.map]

/-! ## The text that a cursor shows -/

/-- Where the position is: up to `end_s`, with these bytes behind it, or past it,
with these bytes missing behind the memory. -/
inductive View where
  | inside (beyond : List UInt8)
  | past (more : List UInt8)

/-- The cursor shows the text. -/
def Sees : View → List UInt8 → Cursor → Prop
  | .inside beyond, s, c => c.rest = s ++ beyond ∧ c.left = s.length
  | .past more, s, c => s = c.rest ++ more ∧ c.left < 0

/-- From here on a read may be outside of memory. -/
def View.Blind : View → List UInt8 → Prop
  | .inside _, _ => False
  | .past more, s => s.length ≤ more.length

variable {v : View} {s s' u : List UInt8} {c c' : Cursor} {b : UInt8}

theorem View.Blind.mono (h : v.Blind s) (hle : s'.length ≤ s.length) : v.Blind s' := by
  cases v with
  | inside beyond => exact h
  | past more => exact hle.trans h

theorem Sees.cons (h : Sees v (b :: s) c) :
    (c.rest = [] ∧ c.left ≠ 0 ∧ v.Blind (b :: s)) ∨
      ∃ rest, c.rest = b :: rest ∧ c.left ≠ 0 ∧ Sees v s ⟨rest, c.left - 1⟩ := by
  obtain ⟨rest, left⟩ := c
  cases v with
  | inside beyond =>
      obtain ⟨rfl, rfl⟩ := h
      refine .inr ⟨s ++ beyond, rfl, ?_, rfl, ?_⟩ <;> simp
      omega
  | past more =>
      obtain ⟨hs, hleft⟩ := h
      dsimp only at hs hleft
      cases rest with
      | nil => exact .inl ⟨rfl, by dsimp only; omega, by rw [hs]; exact le_rfl⟩
      | cons b' rest =>
          obtain ⟨rfl, rfl⟩ := List.cons.inj hs
          exact .inr ⟨rest, rfl, by dsimp only; omega, rfl, by dsimp only; omega⟩

theorem Sees.nil (h : Sees v [] c) :
    c.left = 0 ∨ c.rest = [] ∧ c.left ≠ 0 ∧ v.Blind [] := by
  obtain ⟨rest, left⟩ := c
  cases v with
  | inside beyond => exact .inl h.2
  | past more =>
      obtain ⟨hs, hleft⟩ := h
      dsimp only at hs hleft
      have hrest := (List.append_eq_nil_iff.mp hs.symm).1
      exact .inr ⟨hrest, by dsimp only; omega, Nat.zero_le _⟩

/-- The scan does as the text says, or it reads outside of memory where it may. -/
def Agrees {α : Type} (v : View) (r : Scanned α) : Option (α × List UInt8) → Prop
  | some (a, s') => r = .outside ∧ v.Blind s' ∨ ∃ c, r = .found a c ∧ Sees v s' c
  | none => r = .outside ∧ v.Blind [] ∨ r = .mismatch

theorem Agrees.of_outside {α : Type} {r : Scanned α} {p : Option (α × List UInt8)}
    (hr : r = .outside) (h : v.Blind s) (hp : ∀ a s', p = some (a, s') → s'.length ≤ s.length) :
    Agrees v r p := by
  cases p with
  | none => exact .inl ⟨hr, h.mono (Nat.zero_le _)⟩
  | some p => exact .inl ⟨hr, h.mono (hp p.1 p.2 rfl)⟩

theorem Agrees.map {α β : Type} {r : Scanned α} {p : Option (α × List UInt8)}
    (h : Agrees v r p) (f : α → β) :
    Agrees v (r.map f) (p.map fun q => (f q.1, q.2)) := by
  cases p with
  | none =>
      rcases h with ⟨rfl, hblind⟩ | rfl
      · exact .inl ⟨rfl, hblind⟩
      · exact .inr rfl
  | some p =>
      rcases h with ⟨rfl, hblind⟩ | ⟨c, rfl, hc⟩
      · exact .inl ⟨rfl, hblind⟩
      · exact .inr ⟨c, rfl, hc⟩

/-! ## Loops -/

section Loop

variable {α : Type} (goes : α → UInt8 → Bool) (next : α → UInt8 → α)

/-- A loop of the scanner: go on while the byte passes a test. -/
def scanWhile : List UInt8 → Int → α → Scanned α
  | [], left, a => if left = 0 then .found a ⟨[], 0⟩ else .outside
  | b :: rest, left, a =>
      if left ≠ 0 ∧ goes a b = true then scanWhile rest (left - 1) (next a b)
      else .found a ⟨b :: rest, left⟩

/-- The same on a text. -/
def spanWhile : List UInt8 → α → α × List UInt8
  | [], a => (a, [])
  | b :: s, a => if goes a b = true then spanWhile s (next a b) else (a, b :: s)

theorem length_spanWhile (s : List UInt8) (a : α) :
    (spanWhile goes next s a).2.length ≤ s.length := by
  induction s generalizing a with
  | nil => exact le_rfl
  | cons b s ih =>
      rw [spanWhile]
      split
      · exact (ih _).trans (Nat.le_succ _)
      · exact le_rfl

theorem scanWhile_agrees (a : α) (h : Sees v s c) :
    Agrees v (scanWhile goes next c.rest c.left a) (some (spanWhile goes next s a)) := by
  induction s generalizing c a with
  | nil =>
      rcases h.nil with hleft | ⟨hrest, hleft, hblind⟩
      · have hstop : scanWhile goes next c.rest c.left a = .found a c := by
          obtain ⟨rest, left⟩ := c
          dsimp only at hleft ⊢
          cases rest <;> simp [scanWhile, hleft]
        exact .inr ⟨c, hstop, h⟩
      · exact .inl ⟨by rw [hrest, scanWhile, if_neg hleft], hblind⟩
  | cons b s ih =>
      rcases h.cons with ⟨hrest, hleft, hblind⟩ | ⟨rest, hrest, hleft, htail⟩
      · have hout : scanWhile goes next c.rest c.left a = .outside := by
          rw [hrest, scanWhile, if_neg hleft]
        exact .inl ⟨hout, hblind.mono (length_spanWhile goes next (b :: s) a)⟩
      · rw [hrest, scanWhile, spanWhile]
        by_cases hgoes : goes a b = true
        · rw [if_pos ⟨hleft, hgoes⟩, if_pos hgoes]
          exact ih (next a b) htail
        · rw [if_neg fun hboth => hgoes hboth.2, if_neg hgoes]
          refine .inr ⟨c, ?_, h⟩
          rw [← hrest]

end Loop

theorem skipSpace_eq (m : List UInt8) (left : Int) :
    skipSpace m left = scanWhile (fun _ b => isspace b) (fun _ _ => ()) m left () := by
  induction m generalizing left with
  | nil => rfl
  | cons b m ih => rw [skipSpace, scanWhile, ih]

/-- The test of the loop of `%I`. -/
def octetGoes (x : Int) (b : UInt8) : Bool := isdigit b && decide (x ≤ 255)

def octetNext (x : Int) (b : UInt8) : Int := (if x < 0 then 0 else 10 * x) + (b.toNat - 48)

theorem scanOctet_eq (m : List UInt8) (left x : Int) :
    scanOctet m left x = scanWhile octetGoes octetNext m left x := by
  induction m generalizing left x with
  | nil => rfl
  | cons b m ih => simp [scanOctet, scanWhile, ih, octetGoes, octetNext]

/-- The test of the loop of `%d`. -/
def digitsGo (value : Int) (b : UInt8) : Bool :=
  isdigit b && decide (value < (intMax - (b.toNat - 48)).tdiv 10)

def digitsNext (value : Int) (b : UInt8) : Int := 10 * value + (b.toNat - 48)

theorem scanDigits_eq (m : List UInt8) (left value : Int) :
    scanDigits m left value = scanWhile digitsGo digitsNext m left value := by
  induction m generalizing left value with
  | nil => rfl
  | cons b m ih => simp [scanDigits, scanWhile, ih, digitsGo, digitsNext]

/-! ## The parts on a text -/

def Scanned.bind {α β : Type} (r : Scanned α) (f : α → Cursor → Scanned β) : Scanned β :=
  match r with
  | .found a c => f a c
  | .mismatch => .mismatch
  | .outside => .outside

theorem Agrees.bind {α β : Type} {r : Scanned α} {p : Option (α × List UInt8)}
    {f : α → Cursor → Scanned β} {g : α → List UInt8 → Option (β × List UInt8)}
    (h : Agrees v r p) (hf : ∀ a s c, Sees v s c → Agrees v (f a c) (g a s))
    (hg : ∀ a s b s', g a s = some (b, s') → s'.length ≤ s.length) :
    Agrees v (r.bind f) (p.bind fun q => g q.1 q.2) := by
  cases p with
  | none =>
      rcases h with ⟨rfl, hblind⟩ | rfl
      · exact .inl ⟨rfl, hblind⟩
      · exact .inr rfl
  | some p =>
      rcases h with ⟨rfl, hblind⟩ | ⟨c, rfl, hc⟩
      · exact .of_outside rfl hblind (hg p.1 p.2)
      · exact hf p.1 p.2 c hc

/-- The next byte is there and passes the test. -/
def peek (test : UInt8 → Bool) : List UInt8 → Bool
  | [] => false
  | b :: _ => test b

theorem nextIs_agrees (test : UInt8 → Bool) (h : Sees v s c) :
    nextIs test c = .outside ∧ v.Blind s ∨ nextIs test c = .found (peek test s) c := by
  cases s with
  | nil =>
      rcases h.nil with hleft | ⟨hrest, hleft, hblind⟩
      · exact .inr (by rw [nextIs, if_pos hleft, peek])
      · exact .inl ⟨by rw [nextIs, if_neg hleft, hrest], hblind⟩
  | cons b s =>
      rcases h.cons with ⟨hrest, hleft, hblind⟩ | ⟨rest, hrest, hleft, -⟩
      · exact .inl ⟨by rw [nextIs, if_neg hleft, hrest], hblind⟩
      · exact .inr (by rw [nextIs, if_neg hleft, hrest, peek])

def readByte (test : UInt8 → Bool) : List UInt8 → Option (Unit × List UInt8)
  | [] => none
  | b :: s => if test b then some ((), s) else none

theorem scanByte_agrees (test : UInt8 → Bool) (h : Sees v s c) :
    Agrees v (scanByte test c) (readByte test s) := by
  rcases nextIs_agrees test h with ⟨hout, hblind⟩ | hfound
  · apply Agrees.of_outside (by rw [scanByte, hout]) hblind
    intro a s' hs'
    cases s with
    | nil => cases hs'
    | cons b s =>
        rw [readByte] at hs'
        split at hs'
        · obtain ⟨-, rfl⟩ := Prod.mk.inj (Option.some.inj hs')
          exact Nat.le_succ _
        · cases hs'
  · cases s with
    | nil => exact .inr (by rw [scanByte, hfound, peek])
    | cons b s =>
        rw [peek] at hfound
        rw [readByte]
        by_cases htest : test b = true
        · rcases h.cons with ⟨hrest, hleft, -⟩ | ⟨rest, hrest, -, htail⟩
          · rw [nextIs, if_neg hleft, hrest] at hfound
            cases hfound
          · rw [htest] at hfound
            rw [if_pos htest]
            exact .inr ⟨⟨rest, c.left - 1⟩, by rw [scanByte, hfound, hrest]; rfl, htail⟩
        · rw [if_neg htest]
          exact .inr (by rw [scanByte, hfound, Bool.eq_false_iff.mpr htest])

def spanSpace (s : List UInt8) : Unit × List UInt8 :=
  spanWhile (fun _ b => isspace b) (fun _ _ => ()) s ()

def readSpace (s : List UInt8) : Option (Unit × List UInt8) :=
  (readByte isspace s).bind fun p => some (spanSpace p.2)

theorem scanSpace_agrees (h : Sees v s c) : Agrees v (scanSpace c) (readSpace s) := by
  have hbind : scanSpace c = (scanByte isspace c).bind fun _ c => skipSpace c.rest c.left := by
    unfold scanSpace Scanned.bind
    cases scanByte isspace c <;> rfl
  rw [hbind]
  apply (scanByte_agrees isspace h).bind (g := fun _ s => some (spanSpace s))
  · intro _ s c hs
    rw [skipSpace_eq]
    exact scanWhile_agrees _ _ () hs
  · rintro _ s b s' hs'
    have hspan : (spanSpace s).2 = s' := congrArg Prod.snd (Option.some.inj hs')
    rw [← hspan]
    exact length_spanWhile _ _ s ()

def spanDigits (s : List UInt8) : Int × List UInt8 := spanWhile digitsGo digitsNext s 0

def readInt (s : List UInt8) : Option (Int × List UInt8) :=
  if peek isdigit s = true ∧ peek isdigit (spanDigits s).2 = false then some (spanDigits s)
  else none

theorem readInt_rest {a : Int} (h : readInt s = some (a, s')) : s' = (spanDigits s).2 := by
  rw [readInt] at h
  split at h
  · exact (congrArg Prod.snd (Option.some.inj h)).symm
  · cases h

theorem scanInt_agrees (h : Sees v s c) : Agrees v (scanInt c) (readInt s) := by
  have hrest : ∀ a s', readInt s = some (a, s') → s'.length ≤ (spanDigits s).2.length :=
    fun a s' hs' => (congrArg List.length (readInt_rest hs')).le
  have hle : (spanDigits s).2.length ≤ s.length := length_spanWhile _ _ s 0
  rcases nextIs_agrees isdigit h with ⟨hout, hblind⟩ | hfirst
  · exact .of_outside (by rw [scanInt, hout]) hblind fun a s' hs' => (hrest a s' hs').trans hle
  · cases hpeek : peek isdigit s with
    | false =>
        rw [hpeek] at hfirst
        rw [readInt, if_neg (by simp [hpeek])]
        exact .inr (by rw [scanInt, hfirst])
    | true =>
        rw [hpeek] at hfirst
        have hloop := scanWhile_agrees digitsGo digitsNext 0 h
        rw [← scanDigits_eq] at hloop
        rcases hloop with ⟨hout, hblind⟩ | ⟨c', hfound, hsees⟩
        · exact .of_outside (by simp only [scanInt, hfirst, hout]) hblind hrest
        · change Sees v (spanDigits s).2 c' at hsees
          rcases nextIs_agrees isdigit hsees with ⟨hout, hblind⟩ | hlast
          · exact .of_outside (by simp only [scanInt, hfirst, hfound, hout]) hblind hrest
          · cases hend : peek isdigit (spanDigits s).2 with
            | true =>
                rw [hend] at hlast
                rw [readInt, if_neg (by simp [hend])]
                exact .inr (by simp only [scanInt, hfirst, hfound, hlast])
            | false =>
                rw [hend] at hlast
                rw [readInt, if_pos ⟨hpeek, hend⟩]
                exact .inr ⟨c', by simp only [scanInt, hfirst, hfound, hlast], hsees⟩

def spanOctet (s : List UInt8) : Int × List UInt8 := spanWhile octetGoes octetNext s (-1)

/-- `%I` on a text, with the number of octets that are missing. -/
def readAddress : Nat → BitVec 32 → List UInt8 → Option (BitVec 32 × List UInt8)
  | 0, value, s => some (value, s)
  | n + 1, value, s =>
      if (spanOctet s).1 < 0 ∨ 255 < (spanOctet s).1 then none
      else
        let value := (value <<< 8) + BitVec.ofInt 32 (spanOctet s).1
        if n = 0 then some (value, (spanOctet s).2)
        else
          match (spanOctet s).2 with
          | [] => none
          | b :: s => if b = dot then readAddress n value s else none

theorem length_readAddress {n : Nat} {value a : BitVec 32}
    (h : readAddress n value s = some (a, s')) :
    s'.length ≤ s.length ∧ (0 < n → s'.length ≤ (spanOctet s).2.length) := by
  induction n generalizing value s with
  | zero =>
      obtain ⟨-, rfl⟩ := Prod.mk.inj (Option.some.inj h)
      exact ⟨le_rfl, nofun⟩
  | succ n ih =>
      have hspan : (spanOctet s).2.length ≤ s.length := length_spanWhile _ _ s (-1)
      suffices hle : s'.length ≤ (spanOctet s).2.length from
        ⟨hle.trans hspan, fun _ => hle⟩
      simp only [readAddress] at h
      split_ifs at h with hx hn
      · obtain ⟨-, rfl⟩ := Prod.mk.inj (Option.some.inj h)
        exact le_rfl
      · split at h
        · cases h
        · rename_i b rest hrest
          split_ifs at h with hb
          rw [hrest]
          exact (ih h).1.trans (Nat.le_succ _)

theorem scanAddress_agrees (n : Nat) (value : BitVec 32) (h : Sees v s c) :
    Agrees v (scanAddress n value c) (readAddress n value s) := by
  induction n generalizing value s c with
  | zero => exact .inr ⟨c, rfl, h⟩
  | succ n ih =>
      have hloop := scanWhile_agrees octetGoes octetNext (-1) h
      rw [← scanOctet_eq] at hloop
      rcases hloop with ⟨hout, hblind⟩ | ⟨c', hfound, hsees⟩
      · apply Agrees.of_outside (by simp only [scanAddress, hout]) hblind
        intro a s' hs'
        exact (length_readAddress hs').2 (Nat.succ_pos n)
      · change Sees v (spanOctet s).2 c' at hsees
        change scanOctet c.rest c.left (-1) = .found (spanOctet s).1 c' at hfound
        simp only [scanAddress, hfound, readAddress]
        by_cases hx : (spanOctet s).1 < 0 ∨ 255 < (spanOctet s).1
        · rw [if_pos hx, if_pos hx]
          exact .inr rfl
        rw [if_neg hx, if_neg hx]
        by_cases hn : n = 0
        · rw [if_pos hn, if_pos hn]
          exact .inr ⟨c', rfl, hsees⟩
        rw [if_neg hn, if_neg hn]
        cases hrest : (spanOctet s).2 with
        | nil =>
            rw [hrest] at hsees
            rcases hsees.nil with hleft | ⟨hmemory, hleft, hblind⟩
            · rw [if_pos hleft]
              exact .inr rfl
            · rw [if_neg hleft, hmemory]
              exact .inl ⟨rfl, hblind⟩
        | cons b t =>
            rw [hrest] at hsees
            rcases hsees.cons with ⟨hmemory, hleft, hblind⟩ | ⟨rest, hmemory, hleft, htail⟩
            · rw [if_neg hleft, hmemory]
              apply Agrees.of_outside rfl hblind
              intro a s' hs'
              dsimp only at hs'
              split_ifs at hs' with hb
              exact (length_readAddress hs').1.trans (Nat.le_succ _)
            · rw [if_neg hleft, hmemory]
              dsimp only
              by_cases hb : b = dot
              · rw [if_pos hb, if_pos hb]
                exact ih _ htail
              · rw [if_neg hb, if_neg hb]
                exact .inr rfl

/-- `%s` on a text, with what is left of it. -/
def readString : List UInt8 → List UInt8 × List UInt8
  | [] => ([], [])
  | c :: rest =>
      if isspace c then ([], c :: rest)
      else if c = percent then
        match rest with
        | [] => ([c], [])
        | h :: rest' =>
            if isxdigit h then
              match rest' with
              | [] => ([c, h], [])
              | l :: rest'' =>
                  if isxdigit l then
                    ((xvalue h * 16 + xvalue l) :: (readString rest'').1, (readString rest'').2)
                  else (c :: (readString (h :: l :: rest'')).1, (readString (h :: l :: rest'')).2)
            else (c :: (readString (h :: rest')).1, (readString (h :: rest')).2)
      else (c :: (readString rest).1, (readString rest).2)

theorem takes_readString (s : List UInt8) : Takes .string s (readString s).2 := by
  have hcons : ∀ {b : UInt8} {s t : List UInt8}, isspace b = false → Takes .string s t →
      Takes .string (b :: s) t := by
    rintro b s t hb ⟨u, rfl, hu, hends, -⟩
    exact ⟨b :: u, rfl, List.forall_mem_cons.mpr ⟨hb, hu⟩, hends, nofun⟩
  have hstop : ∀ {s : List UInt8}, Directive.string.Ends s → Takes .string s s := fun hends =>
    ⟨[], rfl, List.forall_mem_nil _, hends, nofun⟩
  have hpercent : isspace percent = false := rfl
  have hhex := not_isspace_of_isxdigit
  fun_induction readString s with
  | case1 => exact hstop nofun
  | case2 b rest hb =>
      refine hstop fun b' hb' => ?_
      obtain rfl := Option.some.inj hb'
      exact hb
  | case3 => exact hcons hpercent (hstop nofun)
  | case4 d hd => exact hcons hpercent (hcons (hhex d hd) (hstop nofun))
  | case5 d hd l rest hl _ ih => exact hcons hpercent (hcons (hhex d hd) (hcons (hhex l hl) ih))
  | case6 d hd l rest hl _ ih => exact hcons hpercent ih
  | case7 d rest hd _ ih => exact hcons hpercent ih
  | case8 b rest hb _ ih => exact hcons (Bool.eq_false_iff.mpr hb) ih

theorem Agrees.store {r : Scanned (List UInt8)} {p : List UInt8 × List UInt8}
    (h : Agrees v r (some p)) (b : UInt8) : Agrees v (r.store b) (some (b :: p.1, p.2)) := by
  rcases h with ⟨rfl, hblind⟩ | ⟨c, rfl, hc⟩
  · exact .inl ⟨rfl, hblind⟩
  · exact .inr ⟨c, rfl, hc⟩

theorem length_readString (s : List UInt8) : (readString s).2.length ≤ s.length :=
  (takes_readString s).suffix.length_le

theorem isspace_percent : isspace percent = false := rfl

theorem scanString_percent {m : List UInt8} {left : Int} (hleft : left ≠ 0) :
    scanString (percent :: m) left =
      match m with
      | [] => .outside
      | h :: m' =>
          if isxdigit h then
            match m' with
            | [] => .outside
            | l :: m'' =>
                if isxdigit l then (scanString m'' (left - 3)).store (xvalue h * 16 + xvalue l)
                else (scanString (h :: l :: m'') (left - 1)).store percent
          else (scanString (h :: m') (left - 1)).store percent := by
  have hnot : ¬ (left = 0 ∨ isspace percent = true) := by simp [hleft, isspace_percent]
  rw [scanString.eq_def]
  exact (if_neg hnot).trans (if_pos rfl)

theorem cut_percent (s : List UInt8) :
    cut (percent :: s) =
      match s with
      | [] => true
      | h :: s' =>
          if isxdigit h then
            match s' with
            | [] => true
            | l :: s'' => if isxdigit l then cut s'' else cut (h :: l :: s'')
          else cut (h :: s') := by
  have hnot : ¬ isspace percent = true := by simp [isspace_percent]
  rw [cut.eq_def]
  exact (if_neg hnot).trans (if_pos rfl)

variable {bytes t : List UInt8}

theorem scanString_cons (h : Sees v (b :: s) c) (ht : t.length ≤ (b :: s).length) :
    Agrees v (scanString c.rest c.left) (some (bytes, t)) ∨
      ∃ rest, c.rest = b :: rest ∧ c.left ≠ 0 ∧ Sees v s ⟨rest, c.left - 1⟩ := by
  rcases h.cons with ⟨hrest, hleft, hblind⟩ | hnext
  · have hout : scanString c.rest c.left = .outside := by
      rw [hrest, scanString, if_neg hleft]
    exact .inl (.inl ⟨hout, hblind.mono ht⟩)
  · exact .inr hnext

/-- The byte behind a `%` is read, and there the memory may end. -/
theorem scanString_cons_percent {m : List UInt8} {left : Int} (hleft : left ≠ 0)
    (h : Sees v (b :: s) ⟨m, left - 1⟩) (ht : t.length ≤ (b :: s).length) :
    Agrees v (scanString (percent :: m) left) (some (bytes, t)) ∨
      ∃ rest, m = b :: rest ∧ Sees v s ⟨rest, left - 1 - 1⟩ := by
  rcases h.cons with ⟨hm, -, hblind⟩ | ⟨rest, hm, -, hnext⟩
  · dsimp only at hm
    exact .inl (.inl ⟨by rw [hm, scanString_percent hleft], hblind.mono ht⟩)
  · exact .inr ⟨rest, hm, hnext⟩

/-- So is the byte behind that, when it is a hexadecimal digit. -/
theorem scanString_cons_digit {m : List UInt8} {left : Int} {d : UInt8} (hleft : left ≠ 0)
    (hd : isxdigit d = true) (h : Sees v (b :: s) ⟨m, left - 1 - 1⟩)
    (ht : t.length ≤ (b :: s).length) :
    Agrees v (scanString (percent :: d :: m) left) (some (bytes, t)) ∨
      ∃ rest, m = b :: rest ∧ Sees v s ⟨rest, left - 3⟩ := by
  rcases h.cons with ⟨hm, -, hblind⟩ | ⟨rest, hm, -, hnext⟩
  · dsimp only at hm
    have hout : scanString (percent :: d :: m) left = .outside := by
      rw [hm, scanString_percent hleft]
      simp only [hd, if_true]
    exact .inl (.inl ⟨hout, hblind.mono ht⟩)
  · have hshift : left - 1 - 1 - 1 = left - 3 := by omega
    exact .inr ⟨rest, hm, hshift ▸ hnext⟩

theorem ne_percent_of_isxdigit (hb : isxdigit b = true) : b ≠ percent := by
  rintro rfl
  cases hb

theorem readString_digit (hb : isxdigit b = true) (s : List UInt8) :
    (readString (b :: s)).2 = (readString s).2 := by
  have hplain : ¬ isspace b = true := by simp [not_isspace_of_isxdigit b hb]
  rw [readString.eq_def]
  simp only [if_neg hplain, if_neg (ne_percent_of_isxdigit hb)]

theorem scanString_agrees (h : Sees v s c) (hcut : cut s = false) :
    Agrees v (scanString c.rest c.left) (some (readString s)) := by
  fun_induction readString s generalizing c with
  | case1 =>
      rcases h.nil with hleft | ⟨hrest, hleft, hblind⟩
      · refine .inr ⟨c, ?_, h⟩
        obtain ⟨rest, left⟩ := c
        dsimp only at hleft ⊢
        cases rest <;> simp [scanString.eq_def, hleft]
      · exact .inl ⟨by rw [hrest, scanString, if_neg hleft], hblind⟩
  | case2 b s hb =>
      rcases scanString_cons h le_rfl with hag | ⟨rest, hrest, hleft, -⟩
      · exact hag
      · refine .inr ⟨c, ?_, h⟩
        rw [hrest, scanString.eq_def]
        dsimp only
        rw [if_pos (.inr hb), ← hrest]
  | case3 =>
      rw [cut_percent] at hcut
      cases hcut
  | case4 d hd =>
      rw [cut_percent] at hcut
      simp [hd] at hcut
  | case5 d hd l s hl _ ih =>
      rw [cut_percent] at hcut
      simp only [hd, hl, if_true] at hcut
      have hl1 : (readString s).2.length ≤ (l :: s).length :=
        (length_readString s).trans (Nat.le_succ _)
      have hl2 : (readString s).2.length ≤ (d :: l :: s).length := hl1.trans (Nat.le_succ _)
      rcases scanString_cons h (hl2.trans (Nat.le_succ _)) with hag | ⟨rest, hrest, hleft, h1⟩
      · exact hag
      rw [hrest]
      rcases scanString_cons_percent hleft h1 hl2 with hag | ⟨rest, rfl, h2⟩
      · exact hag
      rcases scanString_cons_digit hleft hd h2 hl1 with hag | ⟨rest, rfl, h3⟩
      · exact hag
      rw [scanString_percent hleft]
      simp only [hd, hl, if_true]
      exact (ih h3 hcut).store _
  | case6 d hd l s hl _ ih =>
      rw [cut_percent] at hcut
      simp only [hd, if_true, if_neg hl] at hcut
      have hl2 := length_readString (d :: l :: s)
      have hl1 : (readString (d :: l :: s)).2.length ≤ (l :: s).length :=
        readString_digit hd (l :: s) ▸ length_readString (l :: s)
      rcases scanString_cons h (hl2.trans (Nat.le_succ _)) with hag | ⟨rest, hrest, hleft, h1⟩
      · exact hag
      rw [hrest]
      rcases scanString_cons_percent hleft h1 hl2 with hag | ⟨rest, rfl, h2⟩
      · exact hag
      rcases scanString_cons_digit hleft hd h2 hl1 with hag | ⟨rest, rfl, -⟩
      · exact hag
      rw [scanString_percent hleft]
      simp only [hd, if_true, if_neg hl]
      exact (ih h1 hcut).store percent
  | case7 d s hd _ ih =>
      rw [cut_percent] at hcut
      simp only [if_neg hd] at hcut
      have hl1 := length_readString (d :: s)
      rcases scanString_cons h (hl1.trans (Nat.le_succ _)) with hag | ⟨rest, hrest, hleft, h1⟩
      · exact hag
      rw [hrest]
      rcases scanString_cons_percent hleft h1 hl1 with hag | ⟨rest, rfl, -⟩
      · exact hag
      rw [scanString_percent hleft]
      simp only [if_neg hd]
      exact (ih h1 hcut).store percent
  | case8 b s hb hne ih =>
      have hskip : cut s = false := by
        rw [← hcut]
        conv_rhs => rw [cut.eq_def]
        simp [hb, hne]
      have hl0 := (length_readString s).trans (Nat.le_succ _)
      rcases scanString_cons h hl0 with hag | ⟨rest, hrest, hleft, htail⟩
      · exact hag
      have hstep : scanString c.rest c.left = (scanString rest (c.left - 1)).store b := by
        rw [hrest, scanString.eq_def]
        simp [hleft, hb, hne]
      rw [hstep]
      exact (ih htail hskip).store b

/-- A part of the format on a text, with what `%n` counts. -/
def Directive.read (len : Nat) (left : Int) (s : List UInt8) :
    Directive → Option (Option Value × List UInt8)
  | .string => some (some (.string (readString s).1), (readString s).2)
  | .address => (readAddress 4 0 s).map fun p => (some (.address p.1), p.2)
  | .integer => (readInt s).map fun p => (some (.integer p.1), p.2)
  | .count => some (some (.integer (len - left)), s)
  | .space => (readSpace s).map fun p => (none, p.2)
  | .literal b => (readByte (· = b) s).map fun p => (none, p.2)

theorem Directive.scan_agrees (len : Nat) (d : Directive) (h : Sees v s c)
    (hcut : d = .string → cut s = false) :
    Agrees v (d.scan len c) (d.read len c.left s) := by
  cases d with
  | string => exact (scanString_agrees h (hcut rfl)).map fun s => some (Value.string s)
  | address => exact (scanAddress_agrees 4 0 h).map fun a => some (Value.address a)
  | integer => exact (scanInt_agrees h).map fun i => some (Value.integer i)
  | count => exact .inr ⟨c, rfl, h⟩
  | space => exact (scanSpace_agrees h).map fun _ => none
  | literal b => exact (scanByte_agrees (· = b) h).map fun _ => none

end Cs111Labs.Peer
