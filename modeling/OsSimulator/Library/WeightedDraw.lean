import Mathlib.Algebra.Ring.Int.Defs
import Mathlib.Algebra.Order.BigOperators.Group.List
import Mathlib.Data.Int.ConditionallyCompleteOrder
import Mathlib.Data.Int.Interval
import Mathlib.Data.List.GetD
import Mathlib.Order.ConditionallyCompleteLattice.Basic

/-!
# Weighted draws

The weights of a list share the numbers from `0` to their sum among the positions: each position
holds as many consecutive numbers as its weight says (`mem_holder_iff`), so a position is drawn by
exactly its weight of them (`card_holder`).
-/

set_option autoImplicit false

namespace OsSimulator.Library

/-- The position that holds the number `w`. -/
def holder : List ℤ → ℤ → ℕ
  | [], _ => 0
  | x :: xs, w => if w < x then 0 else holder xs (w - x) + 1

theorem mem_holder_iff {xs : List ℤ} (hxs : ∀ x ∈ xs, 0 ≤ x) {w : ℤ} (hw : 0 ≤ w) (k : ℕ) :
    w < xs.sum ∧ holder xs w = k ↔
      (xs.take k).sum ≤ w ∧ w < (xs.take k).sum + xs.getD k 0 := by
  induction xs generalizing w k with
  | nil =>
    simp only [List.sum_nil, List.take_nil, List.getD_nil]
    omega
  | cons x xs ih =>
    rw [List.forall_mem_cons] at hxs
    have hsum : 0 ≤ xs.sum := List.sum_nonneg hxs.2
    rw [holder, List.sum_cons]
    cases k with
    | zero =>
      rw [List.take_zero, List.sum_nil, List.getD_cons_zero]
      by_cases hlt : w < x
      · rw [if_pos hlt]
        omega
      · rw [if_neg hlt]
        omega
    | succ k =>
      rw [List.take_succ_cons, List.sum_cons, List.getD_cons_succ]
      by_cases hlt : w < x
      · have htake : 0 ≤ (xs.take k).sum :=
          List.sum_nonneg fun y hy => hxs.2 y (List.mem_of_mem_take hy)
        rw [if_pos hlt]
        omega
      · have hrest := ih hxs.2 (w := w - x) (by omega) k
        rw [if_neg hlt, Nat.add_right_cancel_iff]
        constructor
        · rintro ⟨hle, hk⟩
          have := hrest.mp ⟨by omega, hk⟩
          omega
        · rintro ⟨hle, hlt'⟩
          have := hrest.mpr ⟨by omega, by omega⟩
          exact ⟨by omega, this.2⟩

/-- The holder of a number has some weight. -/
theorem getD_holder_pos {xs : List ℤ} (hxs : ∀ x ∈ xs, 0 ≤ x) {w : ℤ} (hw : 0 ≤ w)
    (hlt : w < xs.sum) : 0 < xs.getD (holder xs w) 0 := by
  have hmem := (mem_holder_iff hxs hw (holder xs w)).mp ⟨hlt, rfl⟩
  omega

/-- A number below the sum is held by some position. -/
theorem holder_lt_length {xs : List ℤ} (hxs : ∀ x ∈ xs, 0 ≤ x) {w : ℤ} (hw : 0 ≤ w)
    (hlt : w < xs.sum) : holder xs w < xs.length := by
  have hpos := getD_holder_pos hxs hw hlt
  by_contra hge
  rw [List.getD_eq_default _ _ (Nat.not_lt.mp hge)] at hpos
  exact lt_irrefl _ hpos

/-- **A position is drawn by exactly its weight of the numbers.** -/
theorem card_holder {xs : List ℤ} (hxs : ∀ x ∈ xs, 0 ≤ x) (k : ℕ) :
    (((Finset.Ico 0 xs.sum).filter fun w => holder xs w = k).card : ℤ) = xs.getD k 0 := by
  have hinterval : (Finset.Ico 0 xs.sum).filter (fun w => holder xs w = k) =
      Finset.Ico (xs.take k).sum ((xs.take k).sum + xs.getD k 0) := by
    ext w
    rw [Finset.mem_filter, Finset.mem_Ico, Finset.mem_Ico, and_assoc]
    constructor
    · rintro ⟨hw, hdrawn⟩
      exact (mem_holder_iff hxs hw k).mp hdrawn
    · intro hdrawn
      have htake : 0 ≤ (xs.take k).sum :=
        List.sum_nonneg fun y hy => hxs y (List.mem_of_mem_take hy)
      have hw : 0 ≤ w := le_trans htake hdrawn.1
      exact ⟨hw, (mem_holder_iff hxs hw k).mpr hdrawn⟩
  have hnonneg : 0 ≤ xs.getD k 0 := by
    by_cases hk : k < xs.length
    · rw [List.getD_eq_getElem _ _ hk]
      exact hxs _ (List.getElem_mem hk)
    · rw [List.getD_eq_default _ _ (Nat.not_lt.mp hk)]
  rw [hinterval, Int.card_Ico, add_sub_cancel_left, Int.toNat_of_nonneg hnonneg]

end OsSimulator.Library
