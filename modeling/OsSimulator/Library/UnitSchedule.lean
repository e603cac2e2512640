import Mathlib.Algebra.BigOperators.Group.Finset.Basic
import Mathlib.Algebra.BigOperators.Group.Finset.Piecewise
import Mathlib.Algebra.Order.BigOperators.Group.Finset
import Mathlib.Data.Nat.Count
import Mathlib.Data.Finset.Lattice.Fold

/-!
# Unit-tick schedules of a single server

Jobs arrive over time and need a number of ticks each.  A schedule is a history
`h : ℕ → Option ι`: the job that tick `n` serves, or none.  Nothing here depends on
how the job was chosen.

* `Feasible`: a tick serves an arrived, unfinished job.
* `WorkConserving`: and it serves one whenever there is one.

The work present at a tick evolves by `serve` and `inflow` (`present_succ`).  The total
of it, the backlog, loses one unit a tick as long as there is any, whatever job is
served (`WorkConserving.backlog_succ`); hence all work-conserving schedules of the same
jobs are busy at the same ticks and finish together.
-/

set_option autoImplicit false

namespace OsSimulator.Library

structure JobSet (ι : Type*) where
  jobs : Finset ι
  arrival : ι → ℕ
  burst : ι → ℕ

variable {ι : Type*} [DecidableEq ι]

/-- How many ticks before `n` serve job `i`. -/
def served (h : ℕ → Option ι) (i : ι) (n : ℕ) : ℕ := Nat.count (fun k => h k = some i) n

/-- One tick of service. -/
def serve (R : ι → ℕ) (x : Option ι) (i : ι) : ℕ := R i - if x = some i then 1 else 0

namespace JobSet

variable (J : JobSet ι) (h : ℕ → Option ι)

/-- The work that arrives at tick `n`. -/
def inflow (n : ℕ) (i : ι) : ℕ := if J.arrival i = n then J.burst i else 0

/-- What job `i` still needs. -/
def left (n : ℕ) (i : ι) : ℕ := J.burst i - served h i n

/-- The work of job `i` that tick `n` finds: nothing before its arrival. -/
def present (n : ℕ) (i : ι) : ℕ := if J.arrival i ≤ n then J.left h n i else 0

def backlog (n : ℕ) : ℕ := ∑ i ∈ J.jobs, J.present h n i

def totalLeft (n : ℕ) : ℕ := ∑ i ∈ J.jobs, J.left h n i

structure Feasible : Prop where
  mem : ∀ {n i}, h n = some i → i ∈ J.jobs
  arrived : ∀ {n i}, h n = some i → J.arrival i ≤ n
  unfinished : ∀ {n i}, h n = some i → served h i n < J.burst i

structure WorkConserving : Prop extends Feasible J h where
  idle : ∀ {n}, h n = none → ∀ i ∈ J.jobs, J.present h n i = 0

end JobSet

/-! ## Service -/

section Served

variable {h : ℕ → Option ι} {i : ι} {n m : ℕ}

theorem served_zero (h : ℕ → Option ι) (i : ι) : served h i 0 = 0 := Nat.count_zero _

theorem served_succ (h : ℕ → Option ι) (i : ι) (n : ℕ) :
    served h i (n + 1) = served h i n + if h n = some i then 1 else 0 :=
  Nat.count_succ _ n

theorem served_mono (hnm : n ≤ m) : served h i n ≤ served h i m :=
  Nat.count_monotone _ hnm

end Served

namespace JobSet

variable {J : JobSet ι} {h : ℕ → Option ι}

theorem served_eq_zero (hf : Feasible J h) {i : ι} {n : ℕ} (hn : n ≤ J.arrival i) :
    served h i n = 0 := by
  induction n with
  | zero => exact served_zero h i
  | succ n ih =>
    have hne : h n ≠ some i := by
      intro hi
      have := hf.arrived hi
      omega
    rw [served_succ, ih (by omega), if_neg hne]

theorem served_le_burst (hf : Feasible J h) (i : ι) (n : ℕ) : served h i n ≤ J.burst i := by
  induction n with
  | zero => simp [served_zero]
  | succ n ih =>
    rw [served_succ]
    by_cases hi : h n = some i
    · have := hf.unfinished hi
      rw [if_pos hi]
      omega
    · rw [if_neg hi]
      exact ih

theorem present_zero (J : JobSet ι) (h : ℕ → Option ι) (i : ι) :
    J.present h 0 i = J.inflow 0 i := by
  unfold present inflow left
  simp [served_zero]

/-- **The work present at the next tick** is what service leaves, and what arrives. -/
theorem present_succ (hf : Feasible J h) (n : ℕ) (i : ι) :
    J.present h (n + 1) i = serve (J.present h n) (h n) i + J.inflow (n + 1) i := by
  simp only [present, serve, inflow, left]
  rcases lt_trichotomy (J.arrival i) (n + 1) with hlt | heq | hgt
  · rw [if_pos (by omega), if_pos (by omega), if_neg (ne_of_lt hlt), served_succ]
    omega
  · have hzero : served h i (n + 1) = 0 := served_eq_zero hf (by omega)
    rw [if_pos (by omega), if_neg (by omega), if_pos heq, hzero]
    omega
  · rw [if_neg (by omega), if_neg (by omega), if_neg (ne_of_gt hgt)]
    omega

theorem present_pos_of_served (hf : Feasible J h) {n : ℕ} {i : ι} (hi : h n = some i) :
    0 < J.present h n i := by
  have := hf.unfinished hi
  unfold present left
  rw [if_pos (hf.arrived hi)]
  omega

/-- A job has work present when it has arrived and is not finished. -/
theorem present_pos_iff {n : ℕ} {i : ι} :
    0 < J.present h n i ↔ J.arrival i ≤ n ∧ served h i n < J.burst i := by
  unfold present left
  split <;> omega

end JobSet

theorem sum_serve_none (S : Finset ι) (R : ι → ℕ) :
    ∑ i ∈ S, serve R none i = ∑ i ∈ S, R i := by
  simp [serve]

theorem sum_serve_le (S : Finset ι) (R : ι → ℕ) (x : Option ι) :
    ∑ i ∈ S, R i ≤ ∑ i ∈ S, serve R x i + 1 := by
  have hle : ∀ i ∈ S, R i ≤ serve R x i + if x = some i then 1 else 0 := by
    intro i _
    unfold serve
    omega
  calc ∑ i ∈ S, R i ≤ ∑ i ∈ S, (serve R x i + if x = some i then 1 else 0) :=
        Finset.sum_le_sum hle
    _ = ∑ i ∈ S, serve R x i + ∑ i ∈ S, (if x = some i then 1 else 0) := Finset.sum_add_distrib
    _ ≤ ∑ i ∈ S, serve R x i + 1 := by
        apply Nat.add_le_add_left
        cases x with
        | none => simp
        | some j =>
          simp only [Option.some.injEq, Finset.sum_ite_eq]
          split <;> omega

/-- Serving a job of the set that has work lowers the total by one. -/
theorem sum_serve_some {S : Finset ι} {R : ι → ℕ} {j : ι} (hj : j ∈ S) (hpos : 0 < R j) :
    ∑ i ∈ S, serve R (some j) i + 1 = ∑ i ∈ S, R i := by
  rw [← Finset.add_sum_erase S _ hj, ← Finset.add_sum_erase S R hj]
  have hrest : ∑ i ∈ S.erase j, serve R (some j) i = ∑ i ∈ S.erase j, R i := by
    apply Finset.sum_congr rfl
    intro i hi
    have hne : j ≠ i := (Finset.ne_of_mem_erase hi).symm
    simp [serve, hne]
  have hserved : serve R (some j) j = R j - 1 := by simp [serve]
  rw [hrest, hserved]
  omega

/-! ## Work conservation -/

namespace JobSet

variable {J : JobSet ι} {h h' : ℕ → Option ι}

theorem sum_serve_present (hw : WorkConserving J h) (n : ℕ) :
    ∑ i ∈ J.jobs, serve (J.present h n) (h n) i = J.backlog h n - 1 := by
  unfold backlog
  cases hn : h n with
  | none =>
    rw [sum_serve_none, Finset.sum_eq_zero (hw.idle hn), Nat.zero_sub]
  | some j =>
    rw [← sum_serve_some (hw.mem hn) (present_pos_of_served hw.toFeasible hn)]
    omega

/-- **The backlog** loses a unit a tick while there is one, whatever is served. -/
theorem WorkConserving.backlog_succ (hw : WorkConserving J h) (n : ℕ) :
    J.backlog h (n + 1) = J.backlog h n - 1 + ∑ i ∈ J.jobs, J.inflow (n + 1) i := by
  rw [← sum_serve_present hw, ← Finset.sum_add_distrib]
  exact Finset.sum_congr rfl fun i _ => present_succ hw.toFeasible n i

theorem WorkConserving.backlog_eq (hw : WorkConserving J h) (hw' : WorkConserving J h') (n : ℕ) :
    J.backlog h n = J.backlog h' n := by
  induction n with
  | zero => exact Finset.sum_congr rfl fun i _ => by rw [present_zero, present_zero]
  | succ n ih => rw [hw.backlog_succ, hw'.backlog_succ, ih]

theorem WorkConserving.idle_iff (hw : WorkConserving J h) (n : ℕ) :
    h n = none ↔ ∀ i ∈ J.jobs, J.present h n i = 0 := by
  constructor
  · exact hw.idle
  · intro hzero
    cases hn : h n with
    | none => rfl
    | some j =>
      have hpos := present_pos_of_served hw.toFeasible hn
      have := hzero j (hw.mem hn)
      omega

/-- **Agreement**: work-conserving schedules of the same jobs idle at the same ticks. -/
theorem WorkConserving.idle_iff_idle (hw : WorkConserving J h) (hw' : WorkConserving J h')
    (n : ℕ) : h n = none ↔ h' n = none := by
  have hsum := hw.backlog_eq hw' n
  unfold backlog at hsum
  rw [hw.idle_iff, hw'.idle_iff, ← Finset.sum_eq_zero_iff, hsum, Finset.sum_eq_zero_iff]

/-- What is left in total is the backlog and the work yet to arrive. -/
theorem totalLeft_eq (hf : Feasible J h) (n : ℕ) :
    J.totalLeft h n = J.backlog h n + ∑ i ∈ J.jobs, if n < J.arrival i then J.burst i else 0 := by
  unfold totalLeft backlog
  rw [← Finset.sum_add_distrib]
  apply Finset.sum_congr rfl
  intro i _
  unfold present
  by_cases hi : J.arrival i ≤ n
  · rw [if_pos hi, if_neg (by omega), Nat.add_zero]
  · have hzero : served h i n = 0 := served_eq_zero hf (by omega)
    rw [if_neg hi, if_pos (by omega), left, hzero]
    omega

theorem WorkConserving.totalLeft_eq_totalLeft (hw : WorkConserving J h)
    (hw' : WorkConserving J h') (n : ℕ) : J.totalLeft h n = J.totalLeft h' n := by
  rw [totalLeft_eq hw.toFeasible, totalLeft_eq hw'.toFeasible, hw.backlog_eq hw']

/-- From the last arrival on the backlog only shrinks. -/
theorem WorkConserving.backlog_after (hw : WorkConserving J h) {a : ℕ}
    (ha : ∀ i ∈ J.jobs, J.arrival i ≤ a) (k : ℕ) :
    J.backlog h (a + k) = J.backlog h a - k := by
  induction k with
  | zero => rfl
  | succ k ih =>
    have hnone : ∑ i ∈ J.jobs, J.inflow (a + k + 1) i = 0 := by
      apply Finset.sum_eq_zero
      intro i hi
      have := ha i hi
      exact if_neg (by omega)
    rw [← Nat.add_assoc, hw.backlog_succ, hnone, ih]
    omega

/-- After the last arrival a work-conserving schedule needs no more ticks than there is work. -/
theorem WorkConserving.totalLeft_eq_zero (hw : WorkConserving J h) {a n : ℕ}
    (ha : ∀ i ∈ J.jobs, J.arrival i ≤ a) (hn : a + ∑ i ∈ J.jobs, J.burst i ≤ n) :
    J.totalLeft h n = 0 := by
  have hbacklog : J.backlog h a ≤ ∑ i ∈ J.jobs, J.burst i := by
    apply Finset.sum_le_sum
    intro i _
    unfold present left
    split <;> omega
  have hlate : ∑ i ∈ J.jobs, (if n < J.arrival i then J.burst i else 0) = 0 := by
    apply Finset.sum_eq_zero
    intro i hi
    have := ha i hi
    exact if_neg (by omega)
  have hafter := hw.backlog_after ha (n - a)
  rw [show a + (n - a) = n by omega] at hafter
  rw [totalLeft_eq hw.toFeasible, hafter, hlate]
  omega

/-- **Every work-conserving schedule finishes.** -/
theorem WorkConserving.exists_finished (hw : WorkConserving J h) : ∃ n, J.totalLeft h n = 0 := by
  have ha : ∀ i ∈ J.jobs, J.arrival i ≤ J.jobs.sup J.arrival := fun i hi => Finset.le_sup hi
  exact ⟨_, hw.totalLeft_eq_zero ha le_rfl⟩

/-- Every busy tick is one tick of work done. -/
theorem busy_add_totalLeft (hf : Feasible J h) (n : ℕ) :
    Nat.count (fun k => h k ≠ none) n + J.totalLeft h n = ∑ i ∈ J.jobs, J.burst i := by
  have hserved : ∀ n, Nat.count (fun k => h k ≠ none) n = ∑ i ∈ J.jobs, served h i n := by
    intro n
    induction n with
    | zero => simp [served_zero]
    | succ n ih =>
      simp only [served_succ, Finset.sum_add_distrib, ← ih, Nat.count_succ]
      cases hn : h n with
      | none => simp
      | some j => simp [hf.mem hn]
  rw [hserved, totalLeft, ← Finset.sum_add_distrib]
  apply Finset.sum_congr rfl
  intro i _
  have := served_le_burst hf i n
  unfold left
  omega

end JobSet

end OsSimulator.Library
