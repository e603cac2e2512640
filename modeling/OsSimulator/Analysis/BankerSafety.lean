import OsSimulator.Library.GreedyOrder
import OsSimulator.Model.Banker
import Mathlib.Algebra.BigOperators.Group.Finset.Basic
import Mathlib.Algebra.Order.BigOperators.Group.Finset
import Mathlib.Algebra.Ring.Int.Defs
import Mathlib.Data.Fin.VecNotation

/-!
# `CheckSafeState` decides the existence of a safe order

A safe order lists every process once, and each process's `Need` is at most
`Available` plus the allocations of the processes before it (`SafeOrder`, over the
unbounded integers).  As long as no resource total leaves the range of a machine
integer (`NoOverflow`), the vector `work` of `CheckSafeState` is exactly that sum
(`LoopInv`), so the scan of one round tests exactly whether a process is enabled in
the sense of `OsSimulator.Library.Completes`.  The greedy rule of that library then
says that a round without a runnable process refutes every order.
-/

set_option autoImplicit false

namespace OsSimulator.Analysis

open Library Model Model.BankersState

variable {n m : ℕ}

/-- The order lists every process exactly once and each one's need is covered, over the
unbounded integers, by `Available` and the allocations of those before it. -/
def SafeOrder (b : BankersState n m) (l : List (Fin n)) : Prop :=
  l.Nodup ∧ (∀ i, i ∈ l) ∧
    ∀ xs i ys, l = xs ++ i :: ys → ∀ j,
      (b.need i j).toInt ≤ (b.available j).toInt + (xs.map fun k => (b.allocation k j).toInt).sum

/-- `Available` and all allocations of a resource add up to a 64-bit `int`. -/
def NoOverflow (b : BankersState n m) : Prop :=
  ∀ j, (b.available j).toInt + ∑ i, (b.allocation i j).toInt < 2 ^ 63

/-- No process holds a negative amount. -/
def NonnegAllocation (b : BankersState n m) : Prop :=
  ∀ i j, 0 ≤ (b.allocation i j).toInt

/-- A process is enabled by a set of finished ones when its need is covered by
`Available` and what they released. -/
def Covered (b : BankersState n m) (S : Finset (Fin n)) (i : Fin n) : Prop :=
  ∀ j, (b.need i j).toInt ≤ (b.available j).toInt + ∑ k ∈ S, (b.allocation k j).toInt

variable {b : BankersState n m} {s : Safety n m}

theorem covered_monotone (hb : NonnegAllocation b) : MonotoneEnabled (Covered b) := by
  intro S T i hST h j
  have hsum : ∑ k ∈ S, (b.allocation k j).toInt ≤ ∑ k ∈ T, (b.allocation k j).toInt :=
    Finset.sum_le_sum_of_subset_of_nonneg hST fun k _ _ => hb k j
  exact (h j).trans (by omega)

/-- Safe orders are the completion orders of `Covered` that reach every process. -/
theorem safeOrder_iff_completes (b : BankersState n m) (l : List (Fin n)) :
    SafeOrder b l ↔ Completes (Covered b) ∅ l ∧ ∀ i, i ∈ l := by
  have hsum : ∀ (xs : List (Fin n)), xs.Nodup → ∀ j,
      ∑ k ∈ xs.toFinset, (b.allocation k j).toInt =
        (xs.map fun k => (b.allocation k j).toInt).sum :=
    fun xs hxs j => List.sum_toFinset _ hxs
  rw [completes_iff_enabled_prefixes]
  constructor
  · rintro ⟨hnd, hall, hpre⟩
    refine ⟨⟨hnd, by simp, ?_⟩, hall⟩
    intro xs i ys heq j
    have hxs : xs.Nodup := (List.nodup_append.mp (heq ▸ hnd)).1
    rw [Finset.empty_union, hsum xs hxs]
    exact hpre xs i ys heq j
  · rintro ⟨⟨hnd, -, hpre⟩, hall⟩
    refine ⟨hnd, hall, ?_⟩
    intro xs i ys heq j
    have hxs : xs.Nodup := (List.nodup_append.mp (heq ▸ hnd)).1
    have := hpre xs i ys heq j
    rwa [Finset.empty_union, hsum xs hxs] at this

/-- The loop invariant: `work` is the exact sum, `finish` marks the listed processes,
and the list so far is a completion order. -/
structure LoopInv (b : BankersState n m) (s : Safety n m) : Prop where
  work_eq : ∀ j, (s.work j).toInt =
    (b.available j).toInt + ∑ k ∈ s.safeSeq.toFinset, (b.allocation k j).toInt
  finish_iff : ∀ i, s.finish i = true ↔ i ∈ s.safeSeq
  order : Completes (Covered b) ∅ s.safeSeq

theorem loopInv_initial (b : BankersState n m) : LoopInv b b.initialSafety where
  work_eq := by simp [initialSafety]
  finish_iff := by simp [initialSafety]
  order := trivial

/-- Under the invariant the scan over the resources tests `Covered`. -/
theorem canExecute_iff (hs : LoopInv b s) (i : Fin n) :
    b.canExecute s.work i = true ↔ Covered b s.safeSeq.toFinset i := by
  have hlt : ∀ j, ¬ b.need i j > s.work j ↔ (b.need i j).toInt ≤ (s.work j).toInt := by
    intro j
    rw [gt_iff_lt, Int64.lt_iff_toInt_lt]
    omega
  simp only [canExecute, List.all_eq_true, List.mem_finRange, true_implies,
    Bool.not_eq_true', decide_eq_false_iff_not, hlt, hs.work_eq, Covered]

/-- The process found by a round is new and covered. -/
theorem firstRunnable_some (hs : LoopInv b s) {i : Fin n} (h : b.firstRunnable s = some i) :
    i ∉ s.safeSeq ∧ Covered b s.safeSeq.toFinset i := by
  have hi := List.find?_some h
  simp only [Bool.and_eq_true, Bool.not_eq_true'] at hi
  refine ⟨fun hmem => ?_, (canExecute_iff hs i).mp hi.2⟩
  rw [(hs.finish_iff i).mpr hmem] at hi
  exact absurd hi.1 (by simp)

/-- A round that finds nothing has seen every process finished or not covered. -/
theorem firstRunnable_none (hs : LoopInv b s) (h : b.firstRunnable s = none) (i : Fin n)
    (hi : i ∉ s.safeSeq) : ¬ Covered b s.safeSeq.toFinset i := by
  intro hcov
  have hno := List.find?_eq_none.mp h i (List.mem_finRange i)
  have hfin : s.finish i = false := by
    cases hf : s.finish i
    · rfl
    · exact absurd ((hs.finish_iff i).mp hf) hi
  simp [hfin, (canExecute_iff hs i).mpr hcov] at hno

/-- One more release keeps every partial sum below the total, so `work` does not wrap. -/
theorem work_add_toInt (hb : NonnegAllocation b) (ho : NoOverflow b) (hs : LoopInv b s)
    {i : Fin n} (hi : i ∉ s.safeSeq) (j : Fin m) :
    (s.work j + b.allocation i j).toInt = (s.work j).toInt + (b.allocation i j).toInt := by
  have hle : ∑ k ∈ insert i s.safeSeq.toFinset, (b.allocation k j).toInt ≤
      ∑ k, (b.allocation k j).toInt :=
    Finset.sum_le_sum_of_subset_of_nonneg (Finset.subset_univ _) fun k _ _ => hb k j
  rw [Finset.sum_insert (by simpa using hi)] at hle
  have hlo := (s.work j).le_toInt
  have hwork := hs.work_eq j
  have htot := ho j
  have hai := hb i j
  rw [Int64.toInt_add]
  apply Int.bmod_eq_of_le <;> omega

theorem loopInv_release (hb : NonnegAllocation b) (ho : NoOverflow b) (hs : LoopInv b s)
    {i : Fin n} (h : b.firstRunnable s = some i) : LoopInv b (b.release s i) := by
  obtain ⟨hi, hcov⟩ := firstRunnable_some hs h
  have hset : (s.safeSeq ++ [i]).toFinset = insert i s.safeSeq.toFinset := by
    ext x; simp only [List.mem_toFinset, List.mem_append, List.mem_singleton, Finset.mem_insert]
    tauto
  refine ⟨?_, ?_, ?_⟩
  · intro j
    show (s.work j + b.allocation i j).toInt = _ + ∑ k ∈ (s.safeSeq ++ [i]).toFinset, _
    rw [work_add_toInt hb ho hs hi, hs.work_eq, hset, Finset.sum_insert (by simpa using hi)]
    omega
  · intro k
    show Function.update s.finish i true k = true ↔ k ∈ s.safeSeq ++ [i]
    by_cases hk : k = i
    · subst hk; simp
    · simp [hs.finish_iff, hk]
  · exact hs.order.concat (by simpa using hi) (by simpa using hcov)

/-- A list shorter than the number of processes misses one. -/
theorem exists_not_mem_of_length_lt {l : List (Fin n)} (hlen : l.length < n) : ∃ i, i ∉ l := by
  by_contra hcon
  push Not at hcon
  have huniv : l.toFinset = Finset.univ := Finset.eq_univ_of_forall (by simpa using hcon)
  have hcard := List.toFinset_card_le l
  rw [huniv, Finset.card_univ, Fintype.card_fin] at hcard
  omega

/-- A list without repetition that misses no process is as long as there are processes. -/
theorem mem_of_length_eq {l : List (Fin n)} (hnd : l.Nodup) (hlen : n ≤ l.length) (i : Fin n) :
    i ∈ l := by
  have hcard : l.toFinset.card = l.length := List.toFinset_card_of_nodup hnd
  have huniv : l.toFinset = Finset.univ := by
    apply Finset.eq_univ_of_card
    have hle := Finset.card_le_univ l.toFinset
    simp only [Fintype.card_fin] at hle ⊢
    omega
  have hi : i ∈ l.toFinset := by rw [huniv]; exact Finset.mem_univ i
  simpa using hi

/-- The loop, run with a round of fuel for every missing process and one more, stops;
its verdict is right and its sequence a safe order. -/
theorem safetyLoop_spec (hb : NonnegAllocation b) (ho : NoOverflow b) (fuel : ℕ) (s : Safety n m)
    (hs : LoopInv b s) (hfuel : n < fuel + s.safeSeq.length) :
    ∃ r, b.safetyLoop fuel s = some r ∧ (r.isSafe = true ↔ ∃ l, SafeOrder b l) ∧
      (r.isSafe = true → SafeOrder b r.safeSequence) := by
  induction fuel generalizing s with
  | zero =>
    -- without fuel the list would be longer than the number of processes
    have hlen := (List.Nodup.length_le_card hs.order.nodup.1)
    simp only [Fintype.card_fin] at hlen
    omega
  | succ fuel ih =>
    by_cases hlt : s.safeSeq.length < n
    · cases hfirst : b.firstRunnable s with
      | none =>
        refine ⟨_, by rw [safetyLoop, if_pos hlt, hfirst], ?_, by simp⟩
        simp only [Bool.false_eq_true, false_iff, not_exists]
        intro l hl
        obtain ⟨hl, hall⟩ := (safeOrder_iff_completes b l).mp hl
        obtain ⟨x, hx⟩ := exists_not_mem_of_length_lt hlt
        obtain ⟨i, hi, hcov⟩ := hl.exists_enabled (covered_monotone hb)
          (Finset.empty_subset s.safeSeq.toFinset) (hall x) (by simpa using hx)
        exact firstRunnable_none hs hfirst i (by simpa using hi) hcov
      | some i =>
        have hinv := loopInv_release hb ho hs hfirst
        obtain ⟨r, hr, hspec⟩ := ih (b.release s i) hinv (by simp [BankersState.release]; omega)
        exact ⟨r, by rw [safetyLoop, if_pos hlt, hfirst]; exact hr, hspec⟩
    · have hsafe : SafeOrder b s.safeSeq := (safeOrder_iff_completes b _).mpr
        ⟨hs.order, mem_of_length_eq hs.order.nodup.1 (by omega)⟩
      exact ⟨_, by rw [safetyLoop, if_neg hlt], by simpa using ⟨_, hsafe⟩, fun _ => hsafe⟩

/-- **`CheckSafeState` is sound and complete.**  For every state with non-negative
allocations whose resource totals fit a machine integer, the check stops, answers
`true` exactly when a safe order exists, and then returns one.
SOURCE: pkg/concurrency/deadlock_banker.go:59-107 -/
theorem checkSafeState_decides_safeOrder (b : BankersState n m) (hb : NonnegAllocation b)
    (ho : NoOverflow b) :
    ∃ r, b.checkSafeState = some r ∧ (r.isSafe = true ↔ ∃ l, SafeOrder b l) ∧
      (r.isSafe = true → SafeOrder b r.safeSequence) :=
  safetyLoop_spec hb ho (n + 1) b.initialSafety (loopInv_initial b) (by omega)

/-- The state of the textbook example, five processes and three resources.
SOURCE: pkg/concurrency/deadlock_test.go:7-22 -/
def textbookState : BankersState 5 3 :=
  ((((newBankersState 5 ["A", "B", "C"] [10, 5, 7]).setProcessClaim 0 ![7, 5, 3] ![0, 1, 0]
    |>.setProcessClaim 1 ![3, 2, 2] ![2, 0, 0]).setProcessClaim 2 ![9, 0, 2] ![3, 0, 2]
    |>.setProcessClaim 3 ![2, 2, 2] ![2, 1, 1]).setProcessClaim 4 ![4, 3, 3] ![0, 0, 2])

theorem checkSafeState_decides_textbookState :
    NonnegAllocation textbookState ∧ NoOverflow textbookState ∧
      ∃ r, textbookState.checkSafeState = some r ∧
        (r.isSafe = true ↔ ∃ l, SafeOrder textbookState l) ∧
        (r.isSafe = true → SafeOrder textbookState r.safeSequence) := by
  have hb : NonnegAllocation textbookState := by unfold NonnegAllocation; decide
  have ho : NoOverflow textbookState := by unfold NoOverflow; decide
  exact ⟨hb, ho, checkSafeState_decides_safeOrder textbookState hb ho⟩

/-- Two processes that need nothing, the largest machine integer available and one
unit allocated to the first. -/
def wrappingState : BankersState 2 1 where
  resourceNames := ![""]
  available := ![9223372036854775807]
  max := ![![1], ![0]]
  allocation := ![![1], ![0]]
  need := ![![0], ![0]]

/-- Without the bound on the totals the answer can be wrong: releasing the first
process's unit wraps `work` around to a negative value, and the second process, which
needs nothing, is then refused. -/
theorem checkSafeState_wraps :
    NonnegAllocation wrappingState ∧
      ¬ ∃ r, wrappingState.checkSafeState = some r ∧
        (r.isSafe = true ↔ ∃ l, SafeOrder wrappingState l) := by
  refine ⟨by unfold NonnegAllocation; decide, ?_⟩
  rintro ⟨r, hr, hiff⟩
  have hrefused : wrappingState.checkSafeState.map (·.isSafe) = some false := by decide
  have hsafe : SafeOrder wrappingState [0, 1] := by
    refine (safeOrder_iff_completes _ _).mpr ⟨?_, by decide⟩
    simp only [completes_cons, completes_nil, and_true, Covered]
    decide
  rw [hr] at hrefused
  simp only [Option.map_some, Option.some.injEq] at hrefused
  exact absurd (hiff.mpr ⟨_, hsafe⟩) (by simp [hrefused])

end OsSimulator.Analysis
