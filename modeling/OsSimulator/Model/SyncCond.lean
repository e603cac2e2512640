import Mathlib.Data.List.Basic

/-!
# Condition variables of the package `sync`

`sync.Cond` keeps the goroutines that wait on it.  `Signal` wakes any one of them, if there is one,
and `Broadcast` wakes all; which one is woken is a choice of the schedule.
-/

set_option autoImplicit false

namespace OsSimulator.Model

section SyncCond

variable {T : Type*}

/-- `Signal`: the calls it wakes (one or none), and those that go on waiting. -/
def signalWaiters (pick : ℕ → ℕ) (waiters : List T) : List T × List T :=
  let i := pick waiters.length % waiters.length
  (waiters[i]?.toList, waiters.eraseIdx i)

theorem signalWaiters_cases (pick : ℕ → ℕ) (waiters : List T) :
    (waiters = [] ∧ signalWaiters pick waiters = ([], [])) ∨
      ∃ pre u post, waiters = pre ++ u :: post ∧
        signalWaiters pick waiters = ([u], pre ++ post) := by
  unfold signalWaiters
  cases waiters with
  | nil => exact .inl ⟨rfl, rfl⟩
  | cons w rest =>
    right
    have hi : pick (w :: rest).length % (w :: rest).length < (w :: rest).length :=
      Nat.mod_lt _ (Nat.succ_pos _)
    generalize pick (w :: rest).length % (w :: rest).length = i at hi
    generalize w :: rest = waiters at hi
    refine ⟨waiters.take i, waiters[i], waiters.drop (i + 1), ?_, ?_⟩
    · rw [List.getElem_cons_drop, List.take_append_drop]
    · simp only [List.getElem?_eq_getElem hi, List.eraseIdx_eq_take_drop_succ, Option.toList_some]

theorem mem_of_mem_signalled {pick : ℕ → ℕ} {waiters : List T} {t : T}
    (h : t ∈ (signalWaiters pick waiters).1) :
    t ∈ waiters := by
  obtain ⟨-, heq⟩ | ⟨pre, v, post, rfl, heq⟩ := signalWaiters_cases pick waiters
  · rw [heq] at h
    cases h
  · rw [heq, List.mem_singleton] at h
    rw [h]
    simp

theorem mem_of_mem_unsignalled {pick : ℕ → ℕ} {waiters : List T} {t : T}
    (h : t ∈ (signalWaiters pick waiters).2) :
    t ∈ waiters := List.mem_of_mem_eraseIdx h

/-- The given threads are woken. -/
def wakeThreads [DecidableEq T] {σ : Type*} (wake : σ → σ) (woken : List T) (pc : T → σ) : T → σ :=
  fun t => if t ∈ woken then wake (pc t) else pc t

section Wake

variable [DecidableEq T] {σ : Type*} {wake : σ → σ} {woken : List T} {pc : T → σ} {t : T}

theorem wakeThreads_nil : wakeThreads wake [] pc = pc := by
  funext t
  exact if_neg List.not_mem_nil

theorem wakeThreads_of_mem (ht : t ∈ woken) : wakeThreads wake woken pc t = wake (pc t) := if_pos ht

theorem wakeThreads_of_notMem (ht : t ∉ woken) : wakeThreads wake woken pc t = pc t := if_neg ht

theorem wakeThreads_cases (wake : σ → σ) (woken : List T) (pc : T → σ) (t : T) :
    wakeThreads wake woken pc t = pc t ∨ wakeThreads wake woken pc t = wake (pc t) :=
  (em (t ∈ woken)).symm.imp wakeThreads_of_notMem wakeThreads_of_mem

/-- A wake-up leaves alone who is not asleep. -/
theorem wakeThreads_of_fixed (h : wake (pc t) = pc t) : wakeThreads wake woken pc t = pc t := by
  by_cases ht : t ∈ woken
  · rw [wakeThreads_of_mem ht, h]
  · rw [wakeThreads_of_notMem ht]

/-- A wake-up is not seen by what it does not change. -/
theorem wakeThreads_iff (R : σ → Prop) (h : ∀ u ∈ woken, R (wake (pc u)) ↔ R (pc u)) :
    R (wakeThreads wake woken pc t) ↔ R (pc t) := by
  by_cases ht : t ∈ woken
  · rw [wakeThreads_of_mem ht, h t ht]
  · rw [wakeThreads_of_notMem ht]

end Wake

end SyncCond

end OsSimulator.Model
