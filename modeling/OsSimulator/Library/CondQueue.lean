import Mathlib.Data.List.Nodup
import Mathlib.Logic.Function.Basic

/-!
# The queue of a condition variable

`Enqueued queue P` says that the queue holds, once each, the members that satisfy `P`.  A member
joins at the end, and any member may leave.
-/

set_option autoImplicit false

namespace OsSimulator.Library

section CondQueue

variable {T : Type*} {queue pre post : List T} {P Q : T → Prop} {t : T}

structure Enqueued (queue : List T) (P : T → Prop) : Prop where
  nodup : queue.Nodup
  mem_iff : ∀ t, t ∈ queue ↔ P t

theorem enqueued_nil (h : ∀ t, ¬ P t) : Enqueued [] P :=
  ⟨List.nodup_nil, fun t => ⟨fun ht => absurd ht List.not_mem_nil, fun ht => absurd ht (h t)⟩⟩

theorem Enqueued.congr (h : Enqueued queue P) (heq : ∀ t, Q t ↔ P t) : Enqueued queue Q :=
  ⟨h.nodup, fun t => (h.mem_iff t).trans (heq t).symm⟩

/-- A member joins. -/
theorem Enqueued.join (h : Enqueued queue P) (ht : ¬ P t) (heq : ∀ u, Q u ↔ u = t ∨ P u) :
    Enqueued (queue ++ [t]) Q := by
  have hnew : t ∉ queue := fun hmem => ht ((h.mem_iff t).mp hmem)
  refine ⟨List.Nodup.append h.nodup (List.nodup_singleton t) (List.disjoint_singleton.mpr hnew),
    fun u => ?_⟩
  rw [List.mem_append, List.mem_singleton, h.mem_iff, heq, or_comm]

/-- A member leaves. -/
theorem Enqueued.leave (h : Enqueued (pre ++ t :: post) P) (heq : ∀ u, Q u ↔ u ≠ t ∧ P u) :
    Enqueued (pre ++ post) Q := by
  obtain ⟨hnot, hnodup⟩ := List.nodup_cons.mp (List.nodup_middle.mp h.nodup)
  refine ⟨hnodup, fun u => ?_⟩
  rw [heq, ← h.mem_iff, List.mem_append, List.mem_append, List.mem_cons]
  constructor
  · intro hu
    refine ⟨fun hut => hnot (hut ▸ List.mem_append.mpr hu), ?_⟩
    exact hu.imp id .inr
  · rintro ⟨hut, hu | hu | hu⟩
    · exact .inl hu
    · exact absurd hu hut
    · exact .inr hu

theorem Enqueued.eq_nil_iff (h : Enqueued queue P) : queue = [] ↔ ∀ t, ¬ P t := by
  rw [List.eq_nil_iff_forall_not_mem]
  exact forall_congr' fun t => not_congr (h.mem_iff t)

/-! ## One member changes its state

The queue holds the members in the state `y`. -/

variable [DecidableEq T] {σ : Type*} {pc : T → σ} {x y : σ}

theorem Enqueued.update_same (h : Enqueued queue fun u => pc u = y) (hold : pc t ≠ y)
    (hnew : x ≠ y) :
    Enqueued queue fun u => Function.update pc t x u = y := by
  refine h.congr fun u => ?_
  by_cases hu : u = t
  · simp [hu, hold, hnew]
  · rw [Function.update_of_ne hu]

theorem Enqueued.update_join (h : Enqueued queue fun u => pc u = y) (hold : pc t ≠ y) :
    Enqueued (queue ++ [t]) fun u => Function.update pc t y u = y := by
  refine h.join hold fun u => ?_
  by_cases hu : u = t
  · simp [hu]
  · simp [hu]

theorem Enqueued.update_leave (h : Enqueued (pre ++ t :: post) fun u => pc u = y) (hnew : x ≠ y) :
    Enqueued (pre ++ post) fun u => Function.update pc t x u = y := by
  refine h.leave fun u => ?_
  by_cases hu : u = t
  · simp [hu, hnew]
  · simp [hu]

end CondQueue

end OsSimulator.Library
