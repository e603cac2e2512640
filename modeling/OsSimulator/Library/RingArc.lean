import Mathlib.Data.List.Basic
import Mathlib.Data.Nat.Find

/-!
# Arcs of a ring

The positions of a list are read as a ring.  A hand at position `hand` passes the positions
`hand`, `hand + 1`, … modulo the length; `ahead` is the number of steps to a position, and
`mapArc` changes the elements that the hand passes in its first `d` steps.

Passing one more element changes this element only (`mapArc_succ`), and the hand stops at the first
element of a kind or when it is back where it started (`exists_firstStop`).
-/

set_option autoImplicit false

namespace OsSimulator.Library

/-! ## Positions -/

/-- The number of steps from the hand to position `i`. -/
def ahead (n hand i : ℕ) : ℕ := (i + (n - hand)) % n

section Positions

variable {n hand i j : ℕ}

/-- Position `j` steps ahead is `j` steps ahead. -/
theorem ahead_step (hhand : hand < n) (hj : j < n) : ahead n hand ((hand + j) % n) = j := by
  have hturn : hand + j + (n - hand) = j + n := by omega
  rw [ahead, Nat.mod_add_mod, hturn, Nat.add_mod_right, Nat.mod_eq_of_lt hj]

theorem step_ahead (hhand : hand < n) (hi : i < n) : (hand + ahead n hand i) % n = i := by
  have hturn : hand + (i + (n - hand)) = i + n := by omega
  rw [ahead, Nat.add_mod_mod, hturn, Nat.add_mod_right, Nat.mod_eq_of_lt hi]

theorem ahead_lt (hi : i < n) : ahead n hand i < n := Nat.mod_lt _ (Nat.zero_lt_of_lt hi)

/-- The hand passes one position more in one step more. -/
theorem ahead_lt_succ_iff (hhand : hand < n) (hi : i < n) (hj : j < n) :
    ahead n hand i < j + 1 ↔ ahead n hand i < j ∨ i = (hand + j) % n := by
  rw [Nat.lt_succ_iff_lt_or_eq]
  refine or_congr_right ⟨?_, ?_⟩
  · rintro rfl
    exact (step_ahead hhand hi).symm
  · rintro rfl
    exact ahead_step hhand hj

/-- **The first stop of the hand.**  It passes `d` positions that are not `stop`, and the next one
is, unless it has gone round. -/
theorem exists_firstStop (n hand : ℕ) (stop : ℕ → Bool) :
    ∃ d ≤ n, (∀ j < d, stop ((hand + j) % n) = false) ∧
      (d < n → stop ((hand + d) % n) = true) := by
  have hexists : ∃ d, d = n ∨ stop ((hand + d) % n) = true := ⟨n, .inl rfl⟩
  have hle : Nat.find hexists ≤ n := Nat.find_min' hexists (.inl rfl)
  refine ⟨Nat.find hexists, hle, fun j hj => ?_, fun hlt => ?_⟩
  · exact Bool.eq_false_iff.mpr fun hstop => Nat.find_min hexists hj (.inr hstop)
  · exact (Nat.find_spec hexists).resolve_left (Nat.ne_of_lt hlt)

end Positions

/-! ## Lists -/

section Lists

variable {α : Type*}

/-- The list with `g` applied to the `d` elements from the hand on. -/
def mapArc (g : α → α) (hand d : ℕ) (l : List α) : List α :=
  l.mapIdx fun i a => if ahead l.length hand i < d then g a else a

variable {g : α → α} {hand d i : ℕ} {l : List α} {a : α}

@[simp] theorem length_mapArc : (mapArc g hand d l).length = l.length := List.length_mapIdx

theorem getElem?_mapArc :
    (mapArc g hand d l)[i]? =
      (l[i]?).map fun a => if ahead l.length hand i < d then g a else a :=
  List.getElem?_mapIdx

@[simp] theorem mapArc_zero : mapArc g hand 0 l = l := by
  apply List.ext_getElem?
  intro i
  simp [getElem?_mapArc]

/-- The element under the hand after `d` steps has not been passed. -/
theorem getElem?_mapArc_next (hhand : hand < l.length) (hd : d < l.length) :
    (mapArc g hand d l)[(hand + d) % l.length]? = l[(hand + d) % l.length]? := by
  simp only [getElem?_mapArc, ahead_step hhand hd, Nat.lt_irrefl, if_false, Option.map_id_fun', id]

/-- One step more changes the next element. -/
theorem mapArc_succ (hhand : hand < l.length) (hd : d < l.length)
    (hget : l[(hand + d) % l.length]? = some a) :
    (mapArc g hand d l).set ((hand + d) % l.length) (g a) = mapArc g hand (d + 1) l := by
  apply List.ext_getElem?
  intro i
  by_cases hi : i < l.length
  · rw [List.getElem?_set, getElem?_mapArc, getElem?_mapArc]
    have hsucc := ahead_lt_succ_iff (i := i) hhand hi hd
    by_cases heq : (hand + d) % l.length = i
    · subst heq
      rw [if_pos rfl, length_mapArc, if_pos hi, hget, Option.map_some,
        if_pos (hsucc.mpr (.inr rfl))]
    · have hiff : ahead l.length hand i < d + 1 ↔ ahead l.length hand i < d :=
        hsucc.trans (or_iff_left (Ne.symm heq))
      simp only [if_neg heq, hiff]
  · have hge : l.length ≤ i := Nat.not_lt.mp hi
    rw [List.getElem?_eq_none (by simpa using hge), List.getElem?_eq_none (by simpa using hge)]

/-- After a whole turn every element has been passed. -/
theorem mapArc_length : mapArc g hand l.length l = l.map g := by
  apply List.ext_getElem?
  intro i
  rw [getElem?_mapArc, List.getElem?_map]
  cases hget : l[i]? with
  | none => rfl
  | some a =>
    obtain ⟨hi, -⟩ := List.getElem?_eq_some_iff.mp hget
    rw [Option.map_some, Option.map_some, if_pos (ahead_lt hi)]

/-- What `g` does not change is not changed by passing. -/
theorem map_mapArc {β : Type*} {k : α → β} (hk : ∀ a, k (g a) = k a) :
    (mapArc g hand d l).map k = l.map k := by
  apply List.ext_getElem?
  intro i
  rw [List.getElem?_map, List.getElem?_map, getElem?_mapArc]
  cases l[i]? with
  | none => rfl
  | some a =>
    simp only [Option.map_some, apply_ite k, hk, ite_self]

end Lists

end OsSimulator.Library
