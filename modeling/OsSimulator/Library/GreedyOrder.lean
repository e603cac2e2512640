import Mathlib.Data.Finset.Dedup
import Mathlib.Data.Finset.Lattice.Lemmas
import Mathlib.Tactic.Tauto

/-!
# Greedy completion orders under a monotone enabling relation

A task `i` may be completed once the set `S` of completed tasks enables it, and
completing further tasks never disables one (`Monotone enabled`).  `Completes
enabled S l` says that starting from `S` the tasks of `l` can be completed one
after the other.

The rule a greedy search rests on is `exists_enabled`: if some order completes
every task, then from *any* set of completed tasks that is not the whole type some
further task is enabled.  So a search that takes an arbitrary enabled task at each
round never runs into a dead end that another choice would have avoided.
-/

set_option autoImplicit false

namespace OsSimulator.Library

section Greedy

variable {ι : Type} [DecidableEq ι]

/-- Completing more tasks never disables a task. -/
def MonotoneEnabled (enabled : Finset ι → ι → Prop) : Prop :=
  ∀ S T i, S ⊆ T → enabled S i → enabled T i

/-- The tasks of the list can be completed in this order, each for the first time,
starting from the completed set `S`. -/
def Completes (enabled : Finset ι → ι → Prop) : Finset ι → List ι → Prop
  | _, [] => True
  | S, i :: l => i ∉ S ∧ enabled S i ∧ Completes enabled (insert i S) l

variable {enabled : Finset ι → ι → Prop}

@[simp] theorem completes_nil (S : Finset ι) : Completes enabled S [] := trivial

@[simp] theorem completes_cons (S : Finset ι) (i : ι) (l : List ι) :
    Completes enabled S (i :: l) ↔ i ∉ S ∧ enabled S i ∧ Completes enabled (insert i S) l :=
  Iff.rfl

/-- Completing the head first and the tail after it reaches the same set. -/
theorem toFinset_cons_union (S : Finset ι) (a : ι) (l : List ι) :
    S ∪ (a :: l).toFinset = insert a S ∪ l.toFinset := by
  ext x
  simp only [List.toFinset_cons, Finset.mem_union, Finset.mem_insert]
  tauto

/-- An order may be extended by a task that is new and enabled after it. -/
theorem Completes.concat {S : Finset ι} {l : List ι} {i : ι} (h : Completes enabled S l)
    (hnew : i ∉ S ∪ l.toFinset) (hi : enabled (S ∪ l.toFinset) i) :
    Completes enabled S (l ++ [i]) := by
  induction l generalizing S with
  | nil =>
    simp only [List.toFinset_nil, Finset.union_empty] at hnew hi
    simpa using And.intro hnew hi
  | cons a l ih =>
    rw [toFinset_cons_union] at hnew hi
    exact ⟨h.1, h.2.1, ih h.2.2 hnew hi⟩

/-- An order from the empty set repeats no task. -/
theorem Completes.nodup {S : Finset ι} {l : List ι} (h : Completes enabled S l) :
    l.Nodup ∧ ∀ i ∈ l, i ∉ S := by
  induction l generalizing S with
  | nil => simp
  | cons a l ih =>
    obtain ⟨ha, -, hl⟩ := h
    obtain ⟨hnd, hout⟩ := ih hl
    refine ⟨List.nodup_cons.mpr ⟨fun hmem => hout a hmem (by simp), hnd⟩, ?_⟩
    intro i hi
    rcases List.mem_cons.mp hi with rfl | hi
    · exact ha
    · exact fun hS => hout i hi (Finset.mem_insert_of_mem hS)

/-- An order is an enumeration without repetition in which every task is enabled by
the tasks before it. -/
theorem completes_iff_enabled_prefixes (S : Finset ι) (l : List ι) :
    Completes enabled S l ↔ l.Nodup ∧ (∀ i ∈ l, i ∉ S) ∧
      ∀ xs i ys, l = xs ++ i :: ys → enabled (S ∪ xs.toFinset) i := by
  constructor
  · intro h
    refine ⟨h.nodup.1, h.nodup.2, ?_⟩
    induction l generalizing S with
    | nil => intro xs i ys heq; simp at heq
    | cons a l ih =>
      intro xs i ys heq
      cases xs with
      | nil =>
        obtain ⟨rfl, -⟩ := List.cons.inj heq
        simpa only [List.toFinset_nil, Finset.union_empty] using h.2.1
      | cons x xs =>
        obtain ⟨rfl, hl⟩ := List.cons.inj heq
        have := ih (insert a S) h.2.2 xs i ys hl
        rwa [← toFinset_cons_union] at this
  · rintro ⟨hnd, hout, hpre⟩
    induction l generalizing S with
    | nil => trivial
    | cons a l ih =>
      obtain ⟨hal, hnd'⟩ := List.nodup_cons.mp hnd
      have ha : enabled S a := by
        simpa only [List.toFinset_nil, Finset.union_empty] using hpre [] a l rfl
      refine ⟨hout a (by simp), ha, ih _ hnd' ?_ ?_⟩
      · intro i hi hmem
        rcases Finset.mem_insert.mp hmem with rfl | hS
        · exact hal hi
        · exact hout i (List.mem_cons_of_mem _ hi) hS
      · intro xs i ys heq
        have := hpre (a :: xs) i ys (by rw [heq]; rfl)
        rwa [toFinset_cons_union] at this

/-- **The greedy rule.**  If an order from `S₀` completes a task outside `S ⊇ S₀`,
then some task outside `S` is enabled at `S`: the first task of the order that `S`
misses is enabled, because everything before it lies in `S`. -/
theorem Completes.exists_enabled (hmono : MonotoneEnabled enabled) {S₀ S : Finset ι}
    {l : List ι} (h : Completes enabled S₀ l) (hsub : S₀ ⊆ S) {x : ι} (hx : x ∈ l)
    (hxS : x ∉ S) : ∃ i ∉ S, enabled S i := by
  induction l generalizing S₀ with
  | nil => simp at hx
  | cons a l ih =>
    obtain ⟨-, ha, hl⟩ := h
    by_cases haS : a ∈ S
    · -- `a` is already completed, so the first missing task lies further on
      have hxl : x ∈ l := by
        rcases List.mem_cons.mp hx with rfl | hxl
        · exact absurd haS hxS
        · exact hxl
      exact ih hl (Finset.insert_subset haS hsub) hxl
    · exact ⟨a, haS, hmono S₀ S a hsub ha⟩

end Greedy

end OsSimulator.Library
