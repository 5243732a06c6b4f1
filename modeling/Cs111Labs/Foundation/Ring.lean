import Mathlib.Tactic

/-!
# Queues in a ring of cells

A queue of `count` values stands in `n` cells, from cell `start % n` on.  A
transfer moves neighbouring cells, which do not go around the end.
-/

namespace Cs111Labs.Foundation.Ring

variable {α : Type} {n start count pos : Nat} {cells : Nat → α} {xs : List α}

/-- The values in the queue, oldest first. -/
def contents (n : Nat) (cells : Nat → α) (start count : Nat) : List α :=
  (List.range count).map fun k => cells ((start + k) % n)

/-- `count` neighbouring cells. -/
def segment (cells : Nat → α) (pos count : Nat) : List α :=
  (List.range count).map fun k => cells (pos + k)

/-- Store a list in neighbouring cells. -/
def store (cells : Nat → α) (pos : Nat) (xs : List α) : Nat → α := fun i =>
  if i < pos then cells i else (xs[i - pos]?).getD (cells i)

@[simp] theorem length_contents : (contents n cells start count).length = count := by
  simp [contents]

@[simp] theorem length_segment : (segment cells pos count).length = count := by
  simp [segment]

@[simp] theorem contents_zero : contents n cells start 0 = [] := rfl

theorem getElem?_contents {k : Nat} (hk : k < count) :
    (contents n cells start count)[k]? = some (cells ((start + k) % n)) := by
  simp [contents, hk]

theorem contents_congr {start' : Nat} (h : start % n = start' % n) :
    contents n cells start count = contents n cells start' count := by
  unfold contents
  apply List.map_congr_left
  intro k _
  rw [Nat.add_mod, h, ← Nat.add_mod]

theorem store_of_lt {i : Nat} (h : i < pos) : store cells pos xs i = cells i := by
  simp [store, h]

theorem store_of_le {i : Nat} (h : pos + xs.length ≤ i) :
    store cells pos xs i = cells i := by
  have hnot : ¬ i < pos := by omega
  have hout : xs[i - pos]? = none := List.getElem?_eq_none (by omega)
  simp [store, hnot, hout]

theorem store_of_mem {k : Nat} (h : k < xs.length) :
    store cells pos xs (pos + k) = xs[k] := by
  simp [store, h]

theorem store_nil : store cells pos [] = cells := by
  funext i
  simp [store]

/-- What follows in the cells follows in the list. -/
theorem store_append (cells : Nat → α) (pos : Nat) (xs ys : List α) :
    store (store cells pos xs) (pos + xs.length) ys = store cells pos (xs ++ ys) := by
  funext i
  by_cases hbefore : i < pos
  · rw [store_of_lt (by omega), store_of_lt hbefore, store_of_lt hbefore]
  · obtain ⟨k, rfl⟩ := Nat.exists_eq_add_of_le (Nat.le_of_not_lt hbefore)
    by_cases hfirst : k < xs.length
    · rw [store_of_lt (by omega), store_of_mem hfirst]
      simp [store, List.getElem?_append_left hfirst, hfirst]
    · obtain ⟨j, rfl⟩ := Nat.exists_eq_add_of_le (Nat.le_of_not_lt hfirst)
      have hindex : pos + (xs.length + j) - (pos + xs.length) = j := by omega
      simp [store, List.getElem?_append_right, hindex]

/-- A value that does not wrap is behind its start. -/
theorem mod_add_of_lt {k : Nat} (h : start % n + k < n) :
    (start + k) % n = start % n + k := by
  rw [← Nat.mod_add_mod]
  exact Nat.mod_eq_of_lt h

/-- The first `m` values are taken out. -/
theorem segment_append_contents (cells : Nat → α) {m : Nat} (hm : m ≤ count)
    (hfits : start % n + m ≤ n) :
    segment cells (start % n) m ++ contents n cells (start + m) (count - m) =
      contents n cells start count := by
  apply List.ext_getElem?
  intro k
  by_cases hk : k < count
  · rw [getElem?_contents hk]
    by_cases hfirst : k < m
    · rw [List.getElem?_append_left (by simpa using hfirst)]
      simp [segment, hfirst, mod_add_of_lt (show start % n + k < n by omega)]
    · rw [List.getElem?_append_right (by simpa using hfirst), length_segment,
        getElem?_contents (by omega)]
      congr 3
      omega
  · rw [List.getElem?_eq_none (by simp; omega), List.getElem?_eq_none (by simpa using hk)]

/-- The position `j` behind the queue is not a cell of the queue. -/
theorem mod_ne_of_lt {k j : Nat} (hk : k < count) (hj : j < n - count) :
    (start + k) % n ≠ (start + count + j) % n := by
  intro heq
  have hmod : start + k ≡ start + count + j [MOD n] := heq
  have hdvd := (Nat.modEq_iff_dvd' (by omega)).mp hmod
  have hle := Nat.le_of_dvd (by omega) hdvd
  omega

/-- A list is put behind the last value. -/
theorem contents_store (cells : Nat → α) (hroom : xs.length ≤ n - count)
    (hfits : (start + count) % n + xs.length ≤ n) :
    contents n (store cells ((start + count) % n) xs) start (count + xs.length) =
      contents n cells start count ++ xs := by
  apply List.ext_getElem?
  intro k
  by_cases hk : k < count + xs.length
  · rw [getElem?_contents hk]
    by_cases hold : k < count
    · rw [List.getElem?_append_left (by simpa using hold), getElem?_contents hold]
      congr 1
      by_cases hbefore : (start + k) % n < (start + count) % n
      · exact store_of_lt hbefore
      · refine store_of_le ?_
        by_contra hinside
        -- Inside the stored cells there would be an old value and a new one.
        obtain ⟨j, hj⟩ := Nat.exists_eq_add_of_le (Nat.le_of_not_lt hbefore)
        have hcell : (start + count + j) % n = (start + count) % n + j :=
          mod_add_of_lt (by omega)
        exact mod_ne_of_lt hold (by omega) (hj.trans hcell.symm)
    · obtain ⟨j, rfl⟩ := Nat.exists_eq_add_of_le (Nat.le_of_not_lt hold)
      have hj : j < xs.length := by omega
      have hcell : (start + count + j) % n = (start + count) % n + j :=
        mod_add_of_lt (by omega)
      rw [List.getElem?_append_right (by simp), length_contents, ← Nat.add_assoc,
        hcell, store_of_mem hj]
      simp [hj]
  · rw [List.getElem?_eq_none (by simpa using hk),
      List.getElem?_eq_none (by simp; omega)]

end Cs111Labs.Foundation.Ring
