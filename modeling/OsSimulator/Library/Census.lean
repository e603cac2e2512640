import Mathlib.Data.Finset.Card
import Mathlib.Logic.Function.Basic

/-!
# How many members are in a state

`HasCount P n` says that exactly `n` members satisfy `P`.  The rules say how the number changes
when one member enters or leaves (`HasCount.update_enter`, `HasCount.update_leave`), and what a
small number means.
-/

set_option autoImplicit false

namespace OsSimulator.Library

section Census

variable {T : Type*} {P Q : T → Prop} {m n : ℕ}

/-- Exactly `n` members satisfy `P`. -/
def HasCount (P : T → Prop) (n : ℕ) : Prop := ∃ S : Finset T, (∀ t, t ∈ S ↔ P t) ∧ S.card = n

theorem hasCount_zero (h : ∀ t, ¬ P t) : HasCount P 0 :=
  ⟨∅, fun t => ⟨fun ht => absurd ht (Finset.notMem_empty t), fun ht => absurd ht (h t)⟩, rfl⟩

theorem hasCount_mem [DecidableEq T] {l : List T} (hl : l.Nodup) : HasCount (· ∈ l) l.length :=
  ⟨l.toFinset, fun _ => List.mem_toFinset, List.toFinset_card_of_nodup hl⟩

theorem HasCount.unique (h : HasCount P n) (h' : HasCount P m) : n = m := by
  obtain ⟨S, hS, rfl⟩ := h
  obtain ⟨R, hR, rfl⟩ := h'
  rw [Finset.ext fun t => (hS t).trans (hR t).symm]

theorem HasCount.congr (h : HasCount P n) (heq : ∀ t, Q t ↔ P t) : HasCount Q n := by
  obtain ⟨S, hS, hcard⟩ := h
  exact ⟨S, fun t => (hS t).trans (heq t).symm, hcard⟩

/-- One member enters. -/
theorem HasCount.enter [DecidableEq T] (h : HasCount P n) {t : T} (ht : ¬ P t)
    (heq : ∀ u, Q u ↔ u = t ∨ P u) : HasCount Q (n + 1) := by
  obtain ⟨S, hS, rfl⟩ := h
  refine ⟨insert t S, fun u => ?_, Finset.card_insert_of_notMem fun hmem => ht ((hS t).mp hmem)⟩
  rw [Finset.mem_insert, hS u, heq u]

/-- One member leaves. -/
theorem HasCount.leave [DecidableEq T] (h : HasCount P n) {t : T} (ht : P t)
    (heq : ∀ u, Q u ↔ u ≠ t ∧ P u) : HasCount Q (n - 1) := by
  obtain ⟨S, hS, rfl⟩ := h
  refine ⟨S.erase t, fun u => ?_, Finset.card_erase_of_mem ((hS t).mpr ht)⟩
  rw [Finset.mem_erase, hS u, heq u]

theorem HasCount.pos (h : HasCount P n) {t : T} (ht : P t) : 0 < n := by
  obtain ⟨S, hS, rfl⟩ := h
  exact Finset.card_pos.mpr ⟨t, (hS t).mpr ht⟩

theorem HasCount.exists_of_pos (h : HasCount P n) (hn : 0 < n) : ∃ t, P t := by
  obtain ⟨S, hS, rfl⟩ := h
  obtain ⟨t, ht⟩ := Finset.card_pos.mp hn
  exact ⟨t, (hS t).mp ht⟩

/-- The members of a part, and those of the rest. -/
theorem HasCount.diff [DecidableEq T] (h : HasCount P n) (hQ : HasCount Q m)
    (hsub : ∀ t, Q t → P t) : m ≤ n ∧ HasCount (fun t => P t ∧ ¬ Q t) (n - m) := by
  obtain ⟨S, hS, rfl⟩ := h
  obtain ⟨R, hR, rfl⟩ := hQ
  have hRS : R ⊆ S := fun t ht => (hS t).mpr (hsub t ((hR t).mp ht))
  refine ⟨Finset.card_le_card hRS, S \ R, fun t => ?_, Finset.card_sdiff_of_subset hRS⟩
  rw [Finset.mem_sdiff, hS t, hR t]

theorem HasCount.at_most_one (h : HasCount P n) (hn : n ≤ 1) {t u : T} (ht : P t) (hu : P u) :
    t = u := by
  obtain ⟨S, hS, rfl⟩ := h
  exact Finset.card_le_one.mp hn t ((hS t).mpr ht) u ((hS u).mpr hu)

/-! ## One member changes its state -/

variable {σ : Type*} {R : T → σ → Prop} {pc : T → σ} {t : T} {x : σ}

/-- Who is in a state that the moved member is not in was there before. -/
theorem eq_of_update [DecidableEq T] {u : T} {y : σ} (h : Function.update pc t x u = y)
    (hx : x ≠ y) : u ≠ t ∧ pc u = y := by
  by_cases hu : u = t
  · rw [hu, Function.update_self] at h
    exact absurd h hx
  · rw [Function.update_of_ne hu] at h
    exact ⟨hu, h⟩

theorem HasCount.update_same [DecidableEq T] (h : HasCount (fun u => R u (pc u)) n)
    (hiff : R t x ↔ R t (pc t)) : HasCount (fun u => R u (Function.update pc t x u)) n := by
  refine h.congr fun u => ?_
  by_cases hu : u = t
  · subst hu
    rw [Function.update_self, hiff]
  · rw [Function.update_of_ne hu]

theorem HasCount.update_enter [DecidableEq T] (h : HasCount (fun u => R u (pc u)) n)
    (hold : ¬ R t (pc t)) (hnew : R t x) :
    HasCount (fun u => R u (Function.update pc t x u)) (n + 1) := by
  refine h.enter hold fun u => ?_
  by_cases hu : u = t
  · subst hu
    simp [hnew]
  · simp [hu]

theorem HasCount.update_leave [DecidableEq T] (h : HasCount (fun u => R u (pc u)) n)
    (hold : R t (pc t)) (hnew : ¬ R t x) :
    HasCount (fun u => R u (Function.update pc t x u)) (n - 1) := by
  refine h.leave hold fun u => ?_
  by_cases hu : u = t
  · subst hu
    simp [hnew]
  · simp [hu]

/-- The number after one member has changed its state. -/
theorem HasCount.update [DecidableEq T] {R : σ → Prop} [DecidablePred R]
    (h : HasCount (fun u => R (pc u)) n) (t : T) (x : σ) :
    ∃ m : ℕ, HasCount (fun u => R (Function.update pc t x u)) m ∧
      (m : ℤ) = n - (if R (pc t) then 1 else 0) + (if R x then 1 else 0) := by
  by_cases hold : R (pc t) <;> by_cases hnew : R x
  · exact ⟨n, update_same (R := fun _ => R) h (iff_of_true hnew hold), by simp [hold, hnew]⟩
  · have hpos := h.pos hold
    refine ⟨n - 1, update_leave (R := fun _ => R) h hold hnew, ?_⟩
    rw [if_pos hold, if_neg hnew]
    omega
  · refine ⟨n + 1, update_enter (R := fun _ => R) h hold hnew, ?_⟩
    rw [if_neg hold, if_pos hnew]
    omega
  · exact ⟨n, update_same (R := fun _ => R) h (iff_of_false hnew hold), by simp [hold, hnew]⟩

end Census

end OsSimulator.Library
