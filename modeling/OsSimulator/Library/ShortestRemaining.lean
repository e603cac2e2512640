import OsSimulator.Library.UnitSchedule
import Mathlib.Order.Interval.Finset.Nat

/-!
# Serving the shortest remaining job minimises the total turnaround

The number of unfinished jobs that are present at a tick is never larger under
`ShortestFirst` than under any other feasible schedule, and the total turnaround is
the sum of these numbers (`sum_turnaround`).

The number itself is not inductive.  `Dominates` compares the work that remains after
any number of jobs is set aside: however many jobs the other schedule sets aside, the
shortest-first schedule reaches no more work with as many.  An arrival keeps this
(`Dominates.arrive`), and so does a tick (`Dominates.serve`): if the served job is
among those set aside, it is exchanged for a longer one that is not.
-/

set_option autoImplicit false

namespace OsSimulator.Library

variable {ι : Type*} [DecidableEq ι]

def Dominates (S : Finset ι) (R R' : ι → ℕ) : Prop :=
  ∀ L ⊆ S, ∃ K ⊆ S, K.card ≤ L.card ∧ ∑ i ∈ S \ K, R i ≤ ∑ i ∈ S \ L, R' i

section Dominates

variable {S : Finset ι} {R R' a : ι → ℕ}

theorem Dominates.refl (S : Finset ι) (R : ι → ℕ) : Dominates S R R :=
  fun K hK => ⟨K, hK, le_rfl, le_rfl⟩

/-- The same new jobs arrive on both sides. -/
theorem Dominates.arrive (hd : Dominates S R R') (hnew : ∀ i, a i ≠ 0 → R' i = 0) :
    Dominates S (fun i => R i + a i) (fun i => R' i + a i) := by
  intro L hL
  -- the new jobs among those set aside are set aside on both sides
  let A := L.filter fun i => a i ≠ 0
  have hA : A ⊆ L := Finset.filter_subset _ _
  obtain ⟨K, hK, hcard, hsum⟩ := hd (L \ A) (Finset.sdiff_subset.trans hL)
  refine ⟨K ∪ A, Finset.union_subset hK (hA.trans hL), ?_, ?_⟩
  · calc (K ∪ A).card ≤ K.card + A.card := Finset.card_union_le K A
      _ ≤ (L \ A).card + A.card := Nat.add_le_add_right hcard _
      _ = L.card := Finset.card_sdiff_add_card_eq_card hA
  · have hold : ∑ i ∈ S \ (K ∪ A), R i ≤ ∑ i ∈ S \ L, R' i := by
      calc ∑ i ∈ S \ (K ∪ A), R i ≤ ∑ i ∈ S \ K, R i :=
            Finset.sum_le_sum_of_subset (Finset.sdiff_subset_sdiff le_rfl Finset.subset_union_left)
        _ ≤ ∑ i ∈ S \ (L \ A), R' i := hsum
        _ = ∑ i ∈ S \ L, R' i := by
            symm
            apply Finset.sum_subset (Finset.sdiff_subset_sdiff le_rfl Finset.sdiff_subset)
            intro i hi hout
            apply hnew
            simp only [Finset.mem_sdiff, A, Finset.mem_filter] at hi hout
            tauto
    have harrive : ∑ i ∈ S \ (K ∪ A), a i ≤ ∑ i ∈ S \ L, a i := by
      calc ∑ i ∈ S \ (K ∪ A), a i ≤ ∑ i ∈ S \ A, a i :=
            Finset.sum_le_sum_of_subset (Finset.sdiff_subset_sdiff le_rfl Finset.subset_union_right)
        _ = ∑ i ∈ S \ L, a i := by
            symm
            apply Finset.sum_subset (Finset.sdiff_subset_sdiff le_rfl hA)
            intro i hi hout
            simp only [Finset.mem_sdiff, A, Finset.mem_filter] at hi hout
            tauto
    rw [Finset.sum_add_distrib, Finset.sum_add_distrib]
    exact Nat.add_le_add hold harrive

/-- **Exchange**: a shortest job need not be set aside while other work remains. -/
theorem exists_exchange {K : Finset ι} {j : ι} (hj : j ∈ S) (hK : K ⊆ S)
    (hmin : ∀ l ∈ S, 0 < R l → R j ≤ R l) (hne : ∑ i ∈ S \ K, R i ≠ 0) :
    ∃ K₂ ⊆ S, K₂.card ≤ K.card ∧ j ∉ K₂ ∧ ∑ i ∈ S \ K₂, R i ≤ ∑ i ∈ S \ K, R i := by
  by_cases hjK : j ∈ K
  · obtain ⟨l, hl, hRl⟩ := Finset.exists_ne_zero_of_sum_ne_zero hne
    obtain ⟨hlS, hlK⟩ := Finset.mem_sdiff.mp hl
    have hjl : j ≠ l := fun heq => hlK (heq ▸ hjK)
    refine ⟨insert l (K.erase j), ?_, ?_, ?_, ?_⟩
    · exact Finset.insert_subset hlS ((Finset.erase_subset j K).trans hK)
    · rw [Finset.card_insert_of_notMem (fun h => hlK (Finset.mem_of_mem_erase h)),
        Finset.card_erase_add_one hjK]
    · simp [hjl]
    · have hset : S \ insert l (K.erase j) = insert j ((S \ K).erase l) := by
        ext i
        simp only [Finset.mem_sdiff, Finset.mem_insert, Finset.mem_erase]
        by_cases hi : i = j
        · subst hi
          simp [hj, hjl]
        · simp only [hi, ne_eq, not_false_eq_true, true_and, false_or]
          tauto
      have hfresh : j ∉ (S \ K).erase l := by simp [hjK]
      rw [hset, Finset.sum_insert hfresh, ← Finset.add_sum_erase (S \ K) R hl]
      exact Nat.add_le_add_right (hmin l hlS (Nat.pos_of_ne_zero hRl)) _
  · exact ⟨K, hK, le_rfl, hjK, le_rfl⟩

theorem serve_le (R : ι → ℕ) (x : Option ι) (i : ι) : serve R x i ≤ R i := Nat.sub_le _ _

/-- One tick: a shortest job is served on the left, any job or none on the right. -/
theorem Dominates.serve {x x' : Option ι} (hd : Dominates S R R')
    (hbusy : ∀ j, x = some j → j ∈ S ∧ 0 < R j ∧ ∀ l ∈ S, 0 < R l → R j ≤ R l)
    (hidle : x = none → ∀ i ∈ S, R i = 0) :
    Dominates S (Library.serve R x) (Library.serve R' x') := by
  intro L hL
  obtain ⟨K, hK, hcard, hsum⟩ := hd L hL
  have hother := sum_serve_le (S \ L) R' x'
  by_cases hzero : ∑ i ∈ S \ K, R i = 0
  · -- nothing remains on the left already
    refine ⟨K, hK, hcard, ?_⟩
    calc ∑ i ∈ S \ K, Library.serve R x i ≤ ∑ i ∈ S \ K, R i :=
          Finset.sum_le_sum fun i _ => serve_le R x i
      _ ≤ ∑ i ∈ S \ L, Library.serve R' x' i := by rw [hzero]; exact Nat.zero_le _
  · cases x with
    | none =>
      exfalso
      apply hzero
      exact Finset.sum_eq_zero fun i hi => hidle rfl i (Finset.sdiff_subset hi)
    | some j =>
      obtain ⟨hj, hpos, hmin⟩ := hbusy j rfl
      obtain ⟨K₂, hK₂, hcard₂, hj₂, hsum₂⟩ := exists_exchange hj hK hmin hzero
      refine ⟨K₂, hK₂, hcard₂.trans hcard, ?_⟩
      have hmine := sum_serve_some (Finset.mem_sdiff.mpr ⟨hj, hj₂⟩) hpos
      omega

/-- Domination bounds the number of jobs with work. -/
theorem Dominates.card_le (hd : Dominates S R R') :
    (S.filter fun i => 0 < R i).card ≤ (S.filter fun i => 0 < R' i).card := by
  obtain ⟨K, -, hcard, hsum⟩ := hd (S.filter fun i => 0 < R' i) (Finset.filter_subset _ _)
  have hother : ∑ i ∈ S \ S.filter (fun i => 0 < R' i), R' i = 0 := by
    apply Finset.sum_eq_zero
    intro i hi
    simp only [Finset.mem_sdiff, Finset.mem_filter] at hi
    by_contra hne
    exact hi.2 ⟨hi.1, Nat.pos_of_ne_zero hne⟩
  have hzero : ∑ i ∈ S \ K, R i = 0 := by omega
  refine (Finset.card_le_card ?_).trans hcard
  intro i hi
  obtain ⟨hiS, hpos⟩ := Finset.mem_filter.mp hi
  by_contra hiK
  have := Finset.sum_eq_zero_iff.mp hzero i (Finset.mem_sdiff.mpr ⟨hiS, hiK⟩)
  omega

end Dominates

namespace JobSet

variable (J : JobSet ι) (h : ℕ → Option ι)

/-- A work-conserving schedule that serves a job with the least remaining work. -/
structure ShortestFirst : Prop extends WorkConserving J h where
  shortest : ∀ {n i}, h n = some i → ∀ j ∈ J.jobs, 0 < J.present h n j →
    J.present h n i ≤ J.present h n j

/-- Job `i` has had its burst from tick `c` on and not before. -/
def CompletesAt (i : ι) (c : ℕ) : Prop := ∀ n, served h i n < J.burst i ↔ n < c

variable {J h} {h' : ℕ → Option ι}

theorem ShortestFirst.dominates (hs : ShortestFirst J h) (hf : Feasible J h') (n : ℕ) :
    Dominates J.jobs (J.present h n) (J.present h' n) := by
  induction n with
  | zero =>
    have hsame : J.present h 0 = J.present h' 0 := by
      funext i
      rw [present_zero, present_zero]
    rw [hsame]
    exact Dominates.refl _ _
  | succ n ih =>
    have hserved : Dominates J.jobs (serve (J.present h n) (h n))
        (serve (J.present h' n) (h' n)) := by
      apply ih.serve
      · intro j hj
        exact ⟨hs.mem hj, present_pos_of_served hs.toFeasible hj, hs.shortest hj⟩
      · exact hs.idle
    have hnew : ∀ i, J.inflow (n + 1) i ≠ 0 → serve (J.present h' n) (h' n) i = 0 := by
      intro i hi
      have harr : J.arrival i = n + 1 := by
        by_contra hne
        exact hi (if_neg hne)
      have hzero : J.present h' n i = 0 := if_neg (by omega)
      have hle := serve_le (J.present h' n) (h' n) i
      omega
    have hstep := hserved.arrive hnew
    rwa [← funext (present_succ hs.toFeasible n), ← funext (present_succ hf n)] at hstep

theorem CompletesAt.arrival_lt (hf : Feasible J h) {i : ι} {c : ℕ} (hc : J.CompletesAt h i c)
    (hpos : 0 < J.burst i) : J.arrival i < c := by
  apply (hc _).mp
  rw [served_eq_zero hf le_rfl]
  exact hpos

/-- A job is present and unfinished for as many ticks as its turnaround. -/
theorem turnaround_eq_card {i : ι} {c N : ℕ} (hc : J.CompletesAt h i c) (hN : c ≤ N) :
    c - J.arrival i = ((Finset.range N).filter fun n => 0 < J.present h n i).card := by
  have hset : ((Finset.range N).filter fun n => 0 < J.present h n i) =
      Finset.Ico (J.arrival i) c := by
    ext n
    have hcn := hc n
    simp only [Finset.mem_filter, Finset.mem_range, Finset.mem_Ico, present_pos_iff]
    omega
  rw [hset, Nat.card_Ico]

/-- The total turnaround counts, tick by tick, the jobs that are present. -/
theorem sum_turnaround {c : ι → ℕ} {N : ℕ} (hc : ∀ i ∈ J.jobs, J.CompletesAt h i (c i))
    (hN : ∀ i ∈ J.jobs, c i ≤ N) :
    ∑ i ∈ J.jobs, (c i - J.arrival i) =
      ∑ n ∈ Finset.range N, (J.jobs.filter fun i => 0 < J.present h n i).card := by
  calc ∑ i ∈ J.jobs, (c i - J.arrival i)
      = ∑ i ∈ J.jobs, ∑ n ∈ Finset.range N, (if 0 < J.present h n i then 1 else 0) := by
        apply Finset.sum_congr rfl
        intro i hi
        rw [turnaround_eq_card (hc i hi) (hN i hi), Finset.card_filter]
    _ = ∑ n ∈ Finset.range N, ∑ i ∈ J.jobs, (if 0 < J.present h n i then 1 else 0) :=
        Finset.sum_comm
    _ = _ := by simp only [Finset.card_filter]

/-- **Optimality**: no feasible schedule has a smaller total turnaround. -/
theorem ShortestFirst.total_turnaround_le (hs : ShortestFirst J h) (hf : Feasible J h')
    {c c' : ι → ℕ} (hc : ∀ i ∈ J.jobs, J.CompletesAt h i (c i))
    (hc' : ∀ i ∈ J.jobs, J.CompletesAt h' i (c' i)) :
    ∑ i ∈ J.jobs, (c i - J.arrival i) ≤ ∑ i ∈ J.jobs, (c' i - J.arrival i) := by
  let N := max (J.jobs.sup c) (J.jobs.sup c')
  have hN : ∀ i ∈ J.jobs, c i ≤ N := fun i hi => (Finset.le_sup hi).trans (le_max_left _ _)
  have hN' : ∀ i ∈ J.jobs, c' i ≤ N := fun i hi => (Finset.le_sup hi).trans (le_max_right _ _)
  rw [sum_turnaround hc hN, sum_turnaround hc' hN']
  exact Finset.sum_le_sum fun n _ => (hs.dominates hf n).card_le

end JobSet

end OsSimulator.Library
