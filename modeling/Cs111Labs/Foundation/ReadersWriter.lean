import Mathlib.Tactic
import Mathlib.Data.Finset.Card

/-!
# Readers and a writer

The holders of a lock that admits one writer or any number of readers.
-/

namespace Cs111Labs.Foundation

variable {α : Type}

structure ReadersWriter (α : Type) where
  writer : Option α
  readers : Finset α
  exclusive : writer.isSome → readers = ∅

namespace ReadersWriter

def Holds (lock : ReadersWriter α) (x : α) : Prop :=
  lock.writer = some x ∨ x ∈ lock.readers

def free : ReadersWriter α := ⟨none, ∅, by simp⟩

def grantWrite (x : α) : ReadersWriter α := ⟨some x, ∅, by simp⟩

def grantRead [DecidableEq α] (lock : ReadersWriter α) (x : α) :
    ReadersWriter α :=
  ⟨none, insert x lock.readers, by simp⟩

def giveBack [DecidableEq α] (lock : ReadersWriter α) (x : α) : ReadersWriter α where
  writer := lock.writer.filter (· ≠ x)
  readers := lock.readers.erase x
  exclusive h := by
    have hsome : lock.writer.isSome := by
      cases hw : lock.writer with
      | none => simp [hw] at h
      | some y => rfl
    rw [lock.exclusive hsome, Finset.erase_empty]

theorem holds_of_writer {lock : ReadersWriter α} {x y : α}
    (hx : lock.writer = some x) (hy : lock.Holds y) : y = x := by
  have hempty := lock.exclusive (by simp [hx])
  rcases hy with hwriter | hreader
  · exact Option.some.inj (hwriter.symm.trans hx)
  · simp [hempty] at hreader

end ReadersWriter

end Cs111Labs.Foundation
