import Mathlib.Data.List.Basic
import Mathlib.Data.Nat.Notation

/-!
# Fair schedules of a system that runs down

A system takes steps of its threads.  A step that changes anything lowers a measure.  A sweep is a
part of a schedule that has a step of every thread.  After as many sweeps as the measure has values,
no thread can move any more (`stuck_of_sweeps`), whatever the order within the sweeps.
-/

set_option autoImplicit false

namespace OsSimulator.Library

variable {σ T : Type*} {step : σ → T → σ}

/-- No thread changes the state. -/
def Stuck (step : σ → T → σ) (s : σ) : Prop := ∀ t, step s t = s

/-- Every step keeps `Inv`, and changes nothing or lowers the measure. -/
structure RunsDown (step : σ → T → σ) (Inv : σ → Prop) (measure : σ → ℕ) : Prop where
  keeps : ∀ s t, Inv s → Inv (step s t)
  descends : ∀ s t, Inv s → step s t = s ∨ measure (step s t) < measure s

theorem foldl_eq_of_idle {s : σ} {schedule : List T} (hidle : ∀ t ∈ schedule, step s t = s) :
    schedule.foldl step s = s := by
  induction schedule with
  | nil => rfl
  | cons t schedule ih =>
    rw [List.forall_mem_cons] at hidle
    rw [List.foldl_cons, hidle.1]
    exact ih hidle.2

theorem Stuck.foldl_eq {s : σ} (hs : Stuck step s) (schedule : List T) :
    schedule.foldl step s = s :=
  foldl_eq_of_idle fun t _ => hs t

variable {Inv : σ → Prop} {measure : σ → ℕ}

theorem RunsDown.foldl_keeps (h : RunsDown step Inv measure) {s : σ} (hs : Inv s)
    (schedule : List T) : Inv (schedule.foldl step s) := by
  induction schedule generalizing s with
  | nil => exact hs
  | cons t schedule ih => exact ih (h.keeps s t hs)

/-- A part of a schedule moves nobody, or lowers the measure. -/
theorem RunsDown.foldl_descends (h : RunsDown step Inv measure) {s : σ} (hs : Inv s)
    (schedule : List T) :
    (∀ t ∈ schedule, step s t = s) ∨ measure (schedule.foldl step s) < measure s := by
  induction schedule generalizing s with
  | nil => exact .inl fun t ht => absurd ht List.not_mem_nil
  | cons t schedule ih =>
    rcases h.descends s t hs with hidle | hlt
    · rw [List.foldl_cons, List.forall_mem_cons, hidle]
      exact (ih hs).imp_left fun hrest => ⟨rfl, hrest⟩
    · right
      rw [List.foldl_cons]
      rcases ih (h.keeps s t hs) with hrest | hless
      · rwa [foldl_eq_of_idle hrest]
      · exact Nat.lt_trans hless hlt

/-- **Enough sweeps end in a stuck state.** -/
theorem RunsDown.stuck_of_sweeps (h : RunsDown step Inv measure) {s : σ} (hs : Inv s)
    {sweeps : List (List T)} (hsweeps : ∀ sweep ∈ sweeps, ∀ t, t ∈ sweep)
    (hlen : measure s ≤ sweeps.length) : Stuck step (sweeps.flatten.foldl step s) := by
  induction sweeps generalizing s with
  | nil =>
    intro t
    have hzero : measure s = 0 := Nat.le_zero.mp hlen
    rcases h.descends s t hs with hidle | hlt
    · exact hidle
    · rw [hzero] at hlt
      exact absurd hlt (Nat.not_lt_zero _)
  | cons sweep sweeps ih =>
    rw [List.forall_mem_cons] at hsweeps
    rw [List.flatten_cons, List.foldl_append]
    rcases h.foldl_descends hs sweep with hidle | hlt
    · have hstuck : Stuck step s := fun t => hidle t (hsweeps.1 t)
      rwa [hstuck.foldl_eq, hstuck.foldl_eq]
    · refine ih (h.foldl_keeps hs sweep) hsweeps.2 ?_
      rw [List.length_cons] at hlen
      exact Nat.le_of_lt_succ (Nat.lt_of_lt_of_le hlt hlen)

end OsSimulator.Library
