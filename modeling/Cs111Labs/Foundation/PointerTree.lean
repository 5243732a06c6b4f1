import Cs111Labs.Foundation.Memory

/-!
# Trees of pointers

A root record and some blocks hold words that point to blocks.  The word of a
place is in the root record, or in the block that the word of its parent points
to.
-/

namespace Cs111Labs.Foundation

open Memory

/-- The places of pointers; `Data` are the numbers of blocks. -/
structure PointerTree (σ : Type) where
  parent : σ → Option σ
  index : σ → Nat
  depth : σ → Nat
  Valid : σ → Prop
  Data : Nat → Prop
  root : Nat
  rootBytes : Set Nat
  start : Nat → Nat
  bytes : Nat → Set Nat
  target : Memory → σ → Nat
  target_eq : ∀ m s, target m s = load32 m
    ((match parent s with | none => root | some p => start (target m p)) + index s)
  depth_lt : ∀ s p, parent s = some p → depth p < depth s
  index_apart : ∀ s t, Valid s → Valid t → parent s = parent t → s ≠ t →
    index s + 4 ≤ index t ∨ index t + 4 ≤ index s
  root_mem : ∀ s, Valid s → parent s = none → ∀ d < 4, root + index s + d ∈ rootBytes
  bytes_mem : ∀ s p b, Valid s → parent s = some p → Data b →
    ∀ d < 4, start b + index s + d ∈ bytes b
  root_apart : ∀ b a, Data b → a ∈ rootBytes → a ∉ bytes b
  bytes_apart : ∀ b c a, Data b → Data c → b ≠ c → a ∈ bytes b → a ∉ bytes c

namespace PointerTree

variable {σ : Type} {T : PointerTree σ} {m m' : Memory} {U : σ → Prop} {S : Set Nat}
  {s t p : σ} {a b : Nat}

/-- The address of the word of a place. -/
def cell (T : PointerTree σ) (m : Memory) (s : σ) : Nat :=
  (match T.parent s with | none => T.root | some p => T.start (T.target m p)) + T.index s

def word (T : PointerTree σ) (m : Memory) (s : σ) : Set Nat :=
  Set.Ico (T.cell m s) (T.cell m s + 4)

/-- The word of `s` is there when the places `U` are in use. -/
def InPlace (T : PointerTree σ) (U : σ → Prop) (s : σ) : Prop :=
  T.Valid s ∧ ∀ p, T.parent s = some p → U p

/-- The places `U` are a tree whose words point to different blocks. -/
structure Spans (T : PointerTree σ) (m : Memory) (U : σ → Prop) : Prop where
  inPlace : ∀ s, U s → T.InPlace U s
  data : ∀ s, U s → T.Data (T.target m s)
  injective : ∀ s t, U s → U t → T.target m s = T.target m t → s = t

theorem load32_cell (T : PointerTree σ) (m : Memory) (s : σ) :
    load32 m (T.cell m s) = T.target m s :=
  (T.target_eq m s).symm

theorem cell_of_none (hparent : T.parent s = none) : T.cell m s = T.root + T.index s := by
  rw [cell, hparent]

theorem cell_of_some (hparent : T.parent s = some p) :
    T.cell m s = T.start (T.target m p) + T.index s := by
  rw [cell, hparent]

theorem cell_congr (h : ∀ p, T.parent s = some p → T.target m' p = T.target m p) :
    T.cell m' s = T.cell m s := by
  cases hparent : T.parent s with
  | none => rw [cell_of_none hparent, cell_of_none hparent]
  | some p => rw [cell_of_some hparent, cell_of_some hparent, h p hparent]

theorem InPlace.mono {U' : σ → Prop} (h : T.InPlace U s) (hsub : ∀ t, U t → U' t) :
    T.InPlace U' s :=
  ⟨h.1, fun p hparent => hsub p (h.2 p hparent)⟩

namespace Spans

/-- A word is in the root record or in a block that is in use. -/
theorem mem_word (h : T.Spans m U) (hs : T.InPlace U s) (ha : a ∈ T.word m s) :
    (T.parent s = none ∧ a ∈ T.rootBytes) ∨
      ∃ p, T.parent s = some p ∧ U p ∧ a ∈ T.bytes (T.target m p) := by
  obtain ⟨hlow, hhigh⟩ := Set.mem_Ico.1 ha
  have hoffset : T.cell m s + (a - T.cell m s) = a := by omega
  cases hparent : T.parent s with
  | none =>
      have hmem := T.root_mem s hs.1 hparent (a - T.cell m s) (by omega)
      rw [← cell_of_none (m := m) hparent, hoffset] at hmem
      exact .inl ⟨rfl, hmem⟩
  | some p =>
      have hp := hs.2 p hparent
      have hmem := T.bytes_mem s p _ hs.1 hparent (h.data p hp) (a - T.cell m s) (by omega)
      rw [← cell_of_some hparent, hoffset] at hmem
      exact .inr ⟨p, rfl, hp, hmem⟩

/-- Different places have different words. -/
theorem word_apart (h : T.Spans m U) (hs : T.InPlace U s) (ht : T.InPlace U t) (hne : s ≠ t)
    (ha : a ∈ T.word m s) : a ∉ T.word m t := by
  intro ha'
  have hsame : T.parent s = T.parent t → False := fun hparent => by
    have hapart := T.index_apart s t hs.1 ht.1 hparent hne
    have hs' := Set.mem_Ico.1 ha
    have ht' := Set.mem_Ico.1 ha'
    simp only [cell, hparent] at hs' ht'
    omega
  rcases h.mem_word hs ha with ⟨hroot, hmem⟩ | ⟨p, hparent, hp, hmem⟩
  · rcases h.mem_word ht ha' with ⟨hroot', -⟩ | ⟨q, hparent', hq, hmem'⟩
    · exact hsame (hroot.trans hroot'.symm)
    · exact T.root_apart _ a (h.data q hq) hmem hmem'
  · rcases h.mem_word ht ha' with ⟨hroot', hmem'⟩ | ⟨q, hparent', hq, hmem'⟩
    · exact T.root_apart _ a (h.data p hp) hmem' hmem
    · have heq : T.target m p = T.target m q := by
        by_contra hpq
        exact T.bytes_apart _ _ a (h.data p hp) (h.data q hq) hpq hmem hmem'
      have hpq : p = q := h.injective p q hp hq heq
      exact hsame (by rw [hparent, hparent', hpq])

/-- A change beside the words of the tree keeps its pointers. -/
theorem target_eq (h : T.Spans m U) (hchanges : ChangesOnly S m m')
    (hout : ∀ t, U t → ∀ a ∈ S, a ∉ T.word m t) (hs : U s) :
    T.target m' s = T.target m s := by
  induction hdepth : T.depth s using Nat.strong_induction_on generalizing s with
  | _ depth ih =>
      have hcell : T.cell m' s = T.cell m s := cell_congr fun p hparent =>
        ih (T.depth p) (hdepth ▸ T.depth_lt s p hparent) ((h.inPlace s hs).2 p hparent) rfl
      rw [← load32_cell, ← load32_cell, hcell]
      refine hchanges.load32 fun d hd hmem => hout s hs _ hmem ?_
      exact Set.mem_Ico.2 ⟨by omega, by omega⟩

theorem cell_eq (h : T.Spans m U) (hchanges : ChangesOnly S m m')
    (hout : ∀ t, U t → ∀ a ∈ S, a ∉ T.word m t) (hs : T.InPlace U s) :
    T.cell m' s = T.cell m s :=
  cell_congr fun p hparent => h.target_eq hchanges hout (hs.2 p hparent)

/-- A word beside the change keeps its pointer, also when it is not in use. -/
theorem target_eq_of_inPlace (h : T.Spans m U) (hchanges : ChangesOnly S m m')
    (hout : ∀ t, U t → ∀ a ∈ S, a ∉ T.word m t) (hs : T.InPlace U s)
    (hword : ∀ a ∈ S, a ∉ T.word m s) : T.target m' s = T.target m s := by
  rw [← load32_cell, ← load32_cell, h.cell_eq hchanges hout hs]
  refine hchanges.load32 fun d hd hmem => hword _ hmem ?_
  exact Set.mem_Ico.2 ⟨by omega, by omega⟩

theorem frame (h : T.Spans m U) (hchanges : ChangesOnly S m m')
    (hout : ∀ t, U t → ∀ a ∈ S, a ∉ T.word m t) : T.Spans m' U where
  inPlace := h.inPlace
  data s hs := by
    rw [h.target_eq hchanges hout hs]
    exact h.data s hs
  injective s t hs ht heq := by
    rw [h.target_eq hchanges hout hs, h.target_eq hchanges hout ht] at heq
    exact h.injective s t hs ht heq

/-- A place is taken into the tree. -/
theorem attach (h : T.Spans m U) (hs : T.InPlace U s) (hdata : T.Data (T.target m s))
    (hnew : ∀ t, U t → T.target m t ≠ T.target m s) : T.Spans m fun t => U t ∨ t = s where
  inPlace t ht := by
    refine InPlace.mono (U := U) ?_ fun t => .inl
    rcases ht with ht | rfl
    · exact h.inPlace t ht
    · exact hs
  data t ht := by
    rcases ht with ht | rfl
    · exact h.data t ht
    · exact hdata
  injective t t' ht ht' heq := by
    rcases ht with ht | rfl
    · rcases ht' with ht' | rfl
      · exact h.injective t t' ht ht' heq
      · exact absurd heq (hnew t ht)
    · rcases ht' with ht' | rfl
      · exact absurd heq.symm (hnew t' ht')
      · rfl

/-- A part of the tree that is closed under parents. -/
theorem restrict {U' : σ → Prop} (h : T.Spans m U) (hsub : ∀ t, U' t → U t)
    (hparent : ∀ t p, U' t → T.parent t = some p → U' p) : T.Spans m U' where
  inPlace t ht := ⟨(h.inPlace t (hsub t ht)).1, fun p => hparent t p ht⟩
  data t ht := h.data t (hsub t ht)
  injective t t' ht ht' := h.injective t t' (hsub t ht) (hsub t' ht')

/-- A leaf is taken out of the tree. -/
theorem detach (h : T.Spans m U) (hleaf : ∀ t, U t → T.parent t ≠ some s) :
    T.Spans m fun t => U t ∧ t ≠ s := by
  refine h.restrict (fun t ht => ht.1) fun t p ht hparent => ?_
  refine ⟨(h.inPlace t ht.1).2 p hparent, ?_⟩
  rintro rfl
  exact hleaf t ht.1 hparent

end Spans

end PointerTree

end Cs111Labs.Foundation
