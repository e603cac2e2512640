import Mathlib.Data.List.Basic

/-!
# Bounded queues and their books

What was put into a queue, in order, is what was got out of it followed by what it still
holds, and it never holds more than its capacity (`Fifo.Law`).  Adding items at the back
when there is room for them, and removing any number at the front, keep the law.
-/

set_option autoImplicit false

namespace OsSimulator.Library

namespace Fifo

variable {α : Type*}

structure Law (capacity : ℕ) (put got buffer : List α) : Prop where
  split : got ++ buffer = put
  bound : buffer.length ≤ capacity

variable {capacity : ℕ} {put got buffer : List α}

theorem law_empty (capacity : ℕ) : Law capacity ([] : List α) [] [] := ⟨rfl, Nat.zero_le _⟩

theorem Law.push (h : Law capacity put got buffer) {xs : List α}
    (hroom : buffer.length + xs.length ≤ capacity) :
    Law capacity (put ++ xs) got (buffer ++ xs) := by
  constructor
  · rw [← h.split, List.append_assoc]
  · rw [List.length_append]
    exact hroom

theorem Law.pop (h : Law capacity put got buffer) (n : ℕ) :
    Law capacity put (got ++ buffer.take n) (buffer.drop n) := by
  constructor
  · rw [List.append_assoc, List.take_append_drop, h.split]
  · have := h.bound
    rw [List.length_drop]
    omega

theorem Law.length_put (h : Law capacity put got buffer) :
    put.length = got.length + buffer.length := by
  rw [← h.split, List.length_append]

end Fifo

end OsSimulator.Library
