import Mathlib.Data.List.Basic

/-!
# Tables in blocks that are allocated when they are first written

A table of cells is cut into blocks of `width` cells; a directory holds the blocks, or nothing
for a block in which no cell was written.  Cell `i` is at place `i % width` of block
`i / width`, and a cell without a block has the default value.

`cell_write` says that such a table behaves as a flat one: a write changes its own cell and no
other, although it may allocate a whole block.
-/

set_option autoImplicit false

namespace OsSimulator.Library

namespace LazyBlocks

variable {α : Type*}

abbrev Directory (α : Type*) := List (Option (List α))

def block (dir : Directory α) (k : ℕ) : Option (List α) := dir[k]?.join

/-- The cell `i`, which is `default` when its block is not there. -/
def cell (width : ℕ) (default : α) (dir : Directory α) (i : ℕ) : α :=
  ((block dir (i / width)).bind fun b => b[i % width]?).getD default

/-- Writes cell `i`, in a new block if there is none. -/
def write (width : ℕ) (default : α) (dir : Directory α) (i : ℕ) (x : α) : Directory α :=
  dir.set (i / width)
    (some (((block dir (i / width)).getD (List.replicate width default)).set (i % width) x))

/-- All blocks have the width. -/
def Shaped (width : ℕ) (dir : Directory α) : Prop :=
  ∀ k b, block dir k = some b → b.length = width

variable {width : ℕ} {default : α} {dir : Directory α} {i : ℕ} {x : α}

theorem block_write_self (hi : i / width < dir.length) :
    block (write width default dir i x) (i / width) =
      some (((block dir (i / width)).getD (List.replicate width default)).set (i % width) x) := by
  rw [block, write, List.getElem?_set_self hi]
  rfl

theorem block_write_of_ne {k : ℕ} (hk : k ≠ i / width) :
    block (write width default dir i x) k = block dir k := by
  unfold block write
  rw [List.getElem?_set_ne (Ne.symm hk)]

/-- A write allocates the block of its cell. -/
theorem isSome_block_write (hi : i / width < dir.length) (k : ℕ) :
    (block (write width default dir i x) k).isSome ↔ k = i / width ∨ (block dir k).isSome := by
  by_cases hk : k = i / width
  · rw [hk, block_write_self hi]
    simp
  · rw [block_write_of_ne hk]
    simp [hk]

theorem length_getD_block (hdir : Shaped width dir) (k : ℕ) :
    ((block dir k).getD (List.replicate width default)).length = width := by
  cases hb : block dir k with
  | none => exact List.length_replicate
  | some b => exact hdir k b hb

theorem Shaped.write (hdir : Shaped width dir) (hi : i / width < dir.length) :
    Shaped width (write width default dir i x) := by
  intro k b hb
  by_cases hk : k = i / width
  · rw [hk, block_write_self hi] at hb
    rw [← Option.some.inj hb, List.length_set]
    exact length_getD_block hdir _
  · rw [block_write_of_ne hk] at hb
    exact hdir k b hb

/-- The cells of a block that is not there, or of a new one, are the default. -/
theorem cell_eq_getD (hwidth : 0 < width) (j : ℕ) :
    cell width default dir j =
      (((block dir (j / width)).getD (List.replicate width default))[j % width]?).getD default := by
  unfold cell
  cases block dir (j / width) with
  | some b => rfl
  | none =>
    have hlt : j % width < width := Nat.mod_lt j hwidth
    rw [Option.bind_none, Option.getD_none, Option.getD_none, List.getElem?_replicate, if_pos hlt]
    rfl

/-- **A write changes its own cell** and no other. -/
theorem cell_write (hwidth : 0 < width) (hdir : Shaped width dir)
    (hi : i / width < dir.length) (j : ℕ) :
    cell width default (write width default dir i x) j =
      if j = i then x else cell width default dir j := by
  by_cases hk : j / width = i / width
  · have hlt : i % width < ((block dir (i / width)).getD (List.replicate width default)).length := by
      rw [length_getD_block hdir]
      exact Nat.mod_lt i hwidth
    rw [cell_eq_getD hwidth, cell_eq_getD hwidth, hk, block_write_self hi, Option.getD_some]
    by_cases hj : j = i
    · rw [if_pos hj, hj, List.getElem?_set_self hlt]
      rfl
    · have hmod : i % width ≠ j % width := by
        intro hmod
        apply hj
        rw [← Nat.div_add_mod j width, ← Nat.div_add_mod i width, hk, hmod]
      rw [if_neg hj, List.getElem?_set_ne hmod]
  · have hj : j ≠ i := fun hj => hk (by rw [hj])
    rw [if_neg hj]
    unfold cell
    rw [block_write_of_ne hk]

/-- Nothing is allocated at first. -/
theorem block_replicate (n k : ℕ) : block (List.replicate n (none : Option (List α))) k = none := by
  unfold block
  rw [List.getElem?_replicate]
  split <;> rfl

end LazyBlocks

end OsSimulator.Library
