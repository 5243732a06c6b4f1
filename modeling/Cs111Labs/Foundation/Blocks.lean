import Mathlib.Tactic

/-!
# Messages that are taken in block by block

A state takes in the whole blocks of a message, and what is left over waits for
more.  How a message is cut into parts makes no difference.
-/

namespace Cs111Labs.Foundation

namespace Blocks

variable {σ α : Type} {f : σ → List α → σ} {size : Nat} {s : σ} {m m' block : List α}

/-- The first `k` blocks. -/
def absorbFirst (f : σ → List α → σ) (size : Nat) : Nat → σ → List α → σ
  | 0, s, _ => s
  | k + 1, s, m => absorbFirst f size k (f s (m.take size)) (m.drop size)

/-- All whole blocks. -/
def absorb (f : σ → List α → σ) (size : Nat) (s : σ) (m : List α) : σ :=
  absorbFirst f size (m.length / size) s m

/-- What is behind the whole blocks. -/
def rest (size : Nat) (m : List α) : List α := m.drop (size * (m.length / size))

theorem length_rest (size : Nat) (m : List α) : (rest size m).length = m.length % size := by
  rw [rest, List.length_drop]
  exact Nat.sub_eq_of_eq_add (Nat.mod_add_div m.length size).symm

theorem absorb_of_lt (h : m.length < size) : absorb f size s m = s := by
  rw [absorb, Nat.div_eq_of_lt h, absorbFirst]

theorem rest_of_lt (h : m.length < size) : rest size m = m := by
  rw [rest, Nat.div_eq_of_lt h, Nat.mul_zero, List.drop_zero]

/-- The first block is taken in first. -/
theorem absorb_of_le (hpos : 0 < size) (h : size ≤ m.length) :
    absorb f size s m = absorb f size (f s (m.take size)) (m.drop size) := by
  obtain ⟨more, hmore⟩ := Nat.exists_eq_add_of_le h
  rw [absorb, absorb, List.length_drop, hmore, Nat.add_sub_cancel_left, Nat.add_div_left _ hpos,
    absorbFirst]

theorem rest_of_le (hpos : 0 < size) (h : size ≤ m.length) :
    rest size m = rest size (m.drop size) := by
  obtain ⟨more, hmore⟩ := Nat.exists_eq_add_of_le h
  rw [rest, rest, List.drop_drop, List.length_drop, hmore, Nat.add_sub_cancel_left,
    Nat.add_div_left _ hpos, Nat.mul_succ, Nat.add_comm]

theorem absorb_block (hpos : 0 < size) (h : block.length = size) :
    absorb f size s (block ++ m) = absorb f size (f s block) m := by
  rw [absorb_of_le hpos (by rw [List.length_append]; omega), List.take_left' h, List.drop_left' h]

theorem absorb_of_eq (hpos : 0 < size) (h : block.length = size) :
    absorb f size s block = f s block := by
  rw [absorb, h, Nat.div_self hpos, absorbFirst, absorbFirst, List.take_of_length_le]
  exact Nat.le_of_eq h

theorem rest_block (hpos : 0 < size) (h : block.length = size) :
    rest size (block ++ m) = rest size m := by
  rw [rest_of_le hpos (by rw [List.length_append]; omega), List.drop_left' h]

/-- The left-over of a message is all that its continuation needs. -/
theorem append (hpos : 0 < size) (f : σ → List α → σ) (s : σ) (m m' : List α) :
    absorb f size s (m ++ m') = absorb f size (absorb f size s m) (rest size m ++ m') ∧
      rest size (m ++ m') = rest size (rest size m ++ m') := by
  induction hlength : m.length using Nat.strongRecOn generalizing s m with
  | _ n ih =>
      rcases Nat.lt_or_ge m.length size with hlt | hle
      · rw [absorb_of_lt hlt, rest_of_lt hlt]
        exact ⟨rfl, rfl⟩
      · have htake : (m.take size).length = size := by
          rw [List.length_take, Nat.min_eq_left hle]
        have hsplit : m ++ m' = m.take size ++ (m.drop size ++ m') := by
          rw [← List.append_assoc, List.take_append_drop]
        have hrest := ih (m.drop size).length (by rw [List.length_drop]; omega)
          (f s (m.take size)) (m.drop size) rfl
        rw [hsplit, absorb_block hpos htake, rest_block hpos htake, absorb_of_le hpos hle,
          rest_of_le hpos hle]
        exact hrest

theorem absorb_append (hpos : 0 < size) :
    absorb f size s (m ++ m') = absorb f size (absorb f size s m) (rest size m ++ m') :=
  (append hpos f s m m').1

theorem rest_append (hpos : 0 < size) :
    rest size (m ++ m') = rest size (rest size m ++ m') :=
  (append hpos (fun (_ : Unit) _ => ()) () m m').2

/-- Another way to take in blocks that agrees on each of them. -/
theorem absorb_congr {g : σ → List α → σ}
    (h : ∀ s block, block.length = size → f s block = g s block) :
    absorb f size s m = absorb g size s m := by
  rcases Nat.eq_zero_or_pos size with rfl | hpos
  · simp [absorb, absorbFirst]
  · induction hlength : m.length using Nat.strongRecOn generalizing s m with
    | _ n ih =>
        rcases Nat.lt_or_ge m.length size with hlt | hle
        · rw [absorb_of_lt hlt, absorb_of_lt hlt]
        · rw [absorb_of_le hpos hle, absorb_of_le hpos hle,
            h _ _ (by rw [List.length_take, Nat.min_eq_left hle])]
          exact ih (m.drop size).length (by rw [List.length_drop]; omega) rfl

end Blocks

end Cs111Labs.Foundation
