import Mathlib.Tactic

/-!
# Accounting for resources

Places hold resources.  A ledger is safe if a resource is free or held by at
most one place, and balanced if in addition no resource is lost.
-/

namespace Cs111Labs.Foundation

structure Ledger (P B : Type) where
  Holds : P → B → Prop
  Free : B → Prop

namespace Ledger

variable {P B : Type} {All : B → Prop} {L L' : Ledger P B} {p : P} {b : B}

structure Safe (All : B → Prop) (L : Ledger P B) : Prop where
  held_mem : ∀ p b, L.Holds p b → All b
  free_mem : ∀ b, L.Free b → All b
  held_not_free : ∀ p b, L.Holds p b → ¬ L.Free b
  once : ∀ p q b, L.Holds p b → L.Holds q b → p = q
  func : ∀ p b c, L.Holds p b → L.Holds p c → b = c

structure Balanced (All : B → Prop) (L : Ledger P B) : Prop extends Safe All L where
  complete : ∀ b, All b → L.Free b ∨ ∃ p, L.Holds p b

/-- An empty place takes a free resource. -/
structure Takes (p : P) (b : B) (L L' : Ledger P B) : Prop where
  empty : ∀ c, ¬ L.Holds p c
  free : L.Free b
  holds_iff : ∀ q c, L'.Holds q c ↔ (q = p ∧ c = b) ∨ L.Holds q c
  free_iff : ∀ c, L'.Free c ↔ c ≠ b ∧ L.Free c

/-- A place gives its resource back. -/
structure Gives (p : P) (b : B) (L L' : Ledger P B) : Prop where
  holds : L.Holds p b
  holds_iff : ∀ q c, L'.Holds q c ↔ q ≠ p ∧ L.Holds q c
  free_iff : ∀ c, L'.Free c ↔ c = b ∨ L.Free c

/-- Places and free resources stay as they are. -/
structure Same (L L' : Ledger P B) : Prop where
  holds_iff : ∀ q c, L'.Holds q c ↔ L.Holds q c
  free_iff : ∀ c, L'.Free c ↔ L.Free c

theorem Safe.takes (h : L.Safe All) (ht : Takes p b L L') : L'.Safe All where
  held_mem q c hc := by
    rcases (ht.holds_iff q c).1 hc with ⟨-, rfl⟩ | hold
    · exact h.free_mem c ht.free
    · exact h.held_mem q c hold
  free_mem c hc := h.free_mem c ((ht.free_iff c).1 hc).2
  held_not_free q c hc hfree := by
    obtain ⟨hne, hfree⟩ := (ht.free_iff c).1 hfree
    rcases (ht.holds_iff q c).1 hc with ⟨-, rfl⟩ | hold
    · exact hne rfl
    · exact h.held_not_free q c hold hfree
  once q q' c hc hc' := by
    rcases (ht.holds_iff q c).1 hc with ⟨rfl, rfl⟩ | hold <;>
      rcases (ht.holds_iff q' c).1 hc' with ⟨rfl, heq⟩ | hold'
    · rfl
    · exact absurd ht.free (h.held_not_free q' c hold')
    · subst heq
      exact absurd ht.free (h.held_not_free q c hold)
    · exact h.once q q' c hold hold'
  func q c c' hc hc' := by
    rcases (ht.holds_iff q c).1 hc with ⟨rfl, rfl⟩ | hold <;>
      rcases (ht.holds_iff q c').1 hc' with ⟨heq, rfl⟩ | hold'
    · rfl
    · exact absurd hold' (ht.empty c')
    · subst heq
      exact absurd hold (ht.empty c)
    · exact h.func q c c' hold hold'

theorem Safe.gives (h : L.Safe All) (hg : Gives p b L L') : L'.Safe All where
  held_mem q c hc := h.held_mem q c ((hg.holds_iff q c).1 hc).2
  free_mem c hc := by
    rcases (hg.free_iff c).1 hc with rfl | hfree
    · exact h.held_mem p c hg.holds
    · exact h.free_mem c hfree
  held_not_free q c hc hfree := by
    obtain ⟨hne, hold⟩ := (hg.holds_iff q c).1 hc
    rcases (hg.free_iff c).1 hfree with rfl | hfree
    · exact hne (h.once q p c hold hg.holds)
    · exact h.held_not_free q c hold hfree
  once q q' c hc hc' :=
    h.once q q' c ((hg.holds_iff q c).1 hc).2 ((hg.holds_iff q' c).1 hc').2
  func q c c' hc hc' :=
    h.func q c c' ((hg.holds_iff q c).1 hc).2 ((hg.holds_iff q c').1 hc').2

theorem Safe.same (h : L.Safe All) (hs : Same L L') : L'.Safe All where
  held_mem q c hc := h.held_mem q c ((hs.holds_iff q c).1 hc)
  free_mem c hc := h.free_mem c ((hs.free_iff c).1 hc)
  held_not_free q c hc hfree :=
    h.held_not_free q c ((hs.holds_iff q c).1 hc) ((hs.free_iff c).1 hfree)
  once q q' c hc hc' :=
    h.once q q' c ((hs.holds_iff q c).1 hc) ((hs.holds_iff q' c).1 hc')
  func q c c' hc hc' :=
    h.func q c c' ((hs.holds_iff q c).1 hc) ((hs.holds_iff q c').1 hc')

/-- Resources may get lost. -/
theorem Safe.sub (h : L.Safe All) (hholds : ∀ q c, L'.Holds q c → L.Holds q c)
    (hfree : ∀ c, L'.Free c → L.Free c) : L'.Safe All where
  held_mem q c hc := h.held_mem q c (hholds q c hc)
  free_mem c hc := h.free_mem c (hfree c hc)
  held_not_free q c hc hc' := h.held_not_free q c (hholds q c hc) (hfree c hc')
  once q q' c hc hc' := h.once q q' c (hholds q c hc) (hholds q' c hc')
  func q c c' hc hc' := h.func q c c' (hholds q c hc) (hholds q c' hc')

/-- Some places give up what they hold, which may become free. -/
theorem Safe.release (h : L.Safe All) (Gone : P → Prop)
    (hholds : ∀ q c, L'.Holds q c → L.Holds q c ∧ ¬ Gone q)
    (hfree : ∀ c, L'.Free c → L.Free c ∨ ∃ q, Gone q ∧ L.Holds q c) : L'.Safe All where
  held_mem q c hc := h.held_mem q c (hholds q c hc).1
  free_mem c hc := by
    rcases hfree c hc with hold | ⟨q, -, hq⟩
    · exact h.free_mem c hold
    · exact h.held_mem q c hq
  held_not_free q c hc hc' := by
    obtain ⟨hold, hgone⟩ := hholds q c hc
    rcases hfree c hc' with hfree | ⟨q', hgone', hold'⟩
    · exact h.held_not_free q c hold hfree
    · exact hgone (h.once q q' c hold hold' ▸ hgone')
  once q q' c hc hc' := h.once q q' c (hholds q c hc).1 (hholds q' c hc').1
  func q c c' hc hc' := h.func q c c' (hholds q c hc).1 (hholds q c' hc').1

/-- Some empty places take free resources. -/
theorem Safe.extend (h : L.Safe All) (New : P → B → Prop)
    (hempty : ∀ q b c, New q b → ¬ L.Holds q c) (htaken : ∀ q c, New q c → L.Free c)
    (honce : ∀ q q' c, New q c → New q' c → q = q')
    (hfunc : ∀ q c c', New q c → New q c' → c = c')
    (hholds : ∀ q c, L'.Holds q c → New q c ∨ L.Holds q c)
    (hfree : ∀ c, L'.Free c → L.Free c ∧ ∀ q, ¬ New q c) : L'.Safe All where
  held_mem q c hc := by
    rcases hholds q c hc with hnew | hold
    · exact h.free_mem c (htaken q c hnew)
    · exact h.held_mem q c hold
  free_mem c hc := h.free_mem c (hfree c hc).1
  held_not_free q c hc hc' := by
    obtain ⟨hfree, hnot⟩ := hfree c hc'
    rcases hholds q c hc with hnew | hold
    · exact hnot q hnew
    · exact h.held_not_free q c hold hfree
  once q q' c hc hc' := by
    rcases hholds q c hc with hnew | hold <;> rcases hholds q' c hc' with hnew' | hold'
    · exact honce q q' c hnew hnew'
    · exact absurd (htaken q c hnew) (h.held_not_free q' c hold')
    · exact absurd (htaken q' c hnew') (h.held_not_free q c hold)
    · exact h.once q q' c hold hold'
  func q c c' hc hc' := by
    rcases hholds q c hc with hnew | hold <;> rcases hholds q c' hc' with hnew' | hold'
    · exact hfunc q c c' hnew hnew'
    · exact absurd hold' (hempty q c c' hnew)
    · exact absurd hold (hempty q c' c hnew')
    · exact h.func q c c' hold hold'

theorem Balanced.takes (h : L.Balanced All) (ht : Takes p b L L') : L'.Balanced All where
  toSafe := h.toSafe.takes ht
  complete c hc := by
    by_cases heq : c = b
    · exact .inr ⟨p, (ht.holds_iff p c).2 (.inl ⟨rfl, heq⟩)⟩
    · rcases h.complete c hc with hfree | ⟨q, hold⟩
      · exact .inl ((ht.free_iff c).2 ⟨heq, hfree⟩)
      · exact .inr ⟨q, (ht.holds_iff q c).2 (.inr hold)⟩

theorem Balanced.gives (h : L.Balanced All) (hg : Gives p b L L') : L'.Balanced All where
  toSafe := h.toSafe.gives hg
  complete c hc := by
    rcases h.complete c hc with hfree | ⟨q, hold⟩
    · exact .inl ((hg.free_iff c).2 (.inr hfree))
    · by_cases heq : q = p
      · subst heq
        exact .inl ((hg.free_iff c).2 (.inl (h.func q c b hold hg.holds)))
      · exact .inr ⟨q, (hg.holds_iff q c).2 ⟨heq, hold⟩⟩

theorem Balanced.same (h : L.Balanced All) (hs : Same L L') : L'.Balanced All where
  toSafe := h.toSafe.same hs
  complete c hc := by
    rcases h.complete c hc with hfree | ⟨q, hold⟩
    · exact .inl ((hs.free_iff c).2 hfree)
    · exact .inr ⟨q, (hs.holds_iff q c).2 hold⟩

/-- Resources are taken and given back, one at a time. -/
inductive Moves : Ledger P B → Ledger P B → Prop
  | refl (L : Ledger P B) : Moves L L
  | takes {L L' L'' : Ledger P B} {p : P} {b : B} :
      Moves L L' → Takes p b L' L'' → Moves L L''
  | gives {L L' L'' : Ledger P B} {p : P} {b : B} :
      Moves L L' → Gives p b L' L'' → Moves L L''
  | same {L L' L'' : Ledger P B} : Moves L L' → Same L' L'' → Moves L L''

theorem Moves.trans {L'' : Ledger P B} (h : Moves L L') (h' : Moves L' L'') :
    Moves L L'' := by
  induction h' with
  | refl => exact h
  | takes _ ht ih => exact .takes ih ht
  | gives _ hg ih => exact .gives ih hg
  | same _ hs ih => exact .same ih hs

theorem Safe.moves (h : L.Safe All) (hmoves : Moves L L') : L'.Safe All := by
  induction hmoves with
  | refl => exact h
  | takes _ ht ih => exact ih.takes ht
  | gives _ hg ih => exact ih.gives hg
  | same _ hs ih => exact ih.same hs

theorem Balanced.moves (h : L.Balanced All) (hmoves : Moves L L') : L'.Balanced All := by
  induction hmoves with
  | refl => exact h
  | takes _ ht ih => exact ih.takes ht
  | gives _ hg ih => exact ih.gives hg
  | same _ hs ih => exact ih.same hs

end Ledger

end Cs111Labs.Foundation
