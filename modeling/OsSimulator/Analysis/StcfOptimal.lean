import OsSimulator.Analysis.WorkConservation
import OsSimulator.Library.InOrderService

/-!
# STCF minimises the total turnaround

STCF sorts the ready queue by remaining time and preempts the running process when the
head is strictly shorter, so the process it executes has the least remaining time of
all processes at hand (`stcf_schedule_shortest`).  A run of STCF is therefore a
shortest-first schedule in the sense of `Library.ShortestRemaining`, and its total
turnaround is at most that of any feasible assignment of processes to ticks.
-/

set_option autoImplicit false

namespace OsSimulator.Analysis

open Model Interface Library

/-! ## The executed process is a shortest one -/

theorem sortByKey_head_le {key : ℕ → ℤ} {queue rest : List ℕ} {i : ℕ}
    (hsort : sortByKey key queue = i :: rest) : ∀ j ∈ rest, key i ≤ key j := by
  have hpair := List.pairwise_insertionSort (fun x y => key x ≤ key y) queue
  rw [sortByKey] at hsort
  rw [hsort] at hpair
  exact (List.pairwise_cons.mp hpair).1

/-- An update that leaves a field alone. -/
theorem field_modify {field : Process → ℤ} {f : Process → Process}
    (hf : ∀ p, field (f p) = field p) (l : List Process) (i j : ℕ) :
    field ((l.modify j f).getD i default) = field (l.getD i default) := by
  by_cases hi : i < l.length
  · rw [getD_modify f hi]
    split
    · exact hf _
    · rfl
  · rw [List.getD_eq_default _ _ (by simp; omega), List.getD_eq_default _ _ (by omega)]

theorem remaining_dispatch (t : ℤ) (b : SchedBase) (i j : ℕ) :
    ((b.dispatch t i).proc j).remainingTime = (b.proc j).remainingTime := by
  apply field_modify
  intro p
  unfold Process.dispatch
  split <;> rfl

theorem stcf_schedule_shortest (t : ℤ) (s : STCFScheduler) {i : ℕ}
    (hrun : (s.schedule t).running = some i) :
    ∀ j ∈ (s.schedule t).readyQueue,
      ((s.schedule t).proc i).remainingTime ≤ ((s.schedule t).proc j).remainingTime := by
  unfold STCFScheduler.schedule at *
  generalize s.toReadyBase.arrive t = a at *
  dsimp only at *
  have hperm := perm_sortByKey (fun i => (a.proc i).remainingTime) a.readyQueue
  split at hrun
  · rename_i hsort
    rw [hsort] at hperm
    rw [List.nil_perm.mp hperm]
    simp
  · rename_i shortest rest hsort
    have hhead := sortByKey_head_le hsort
    split at hrun
    · -- the slot was free
      obtain rfl : shortest = i := Option.some.inj hrun
      intro j hj
      simp only [remaining_dispatch]
      exact hhead j hj
    · rename_i r hr
      split at hrun
      · -- the running process is preempted for a shorter one
        rename_i hlt
        obtain rfl : shortest = i := Option.some.inj hrun
        rw [if_pos hlt]
        intro j hj
        have hkeep : ∀ l, (SchedBase.proc { a.toSchedBase with
            allProcesses := a.allProcesses.modify r Process.preempt } l).remainingTime =
              (a.proc l).remainingTime := fun l =>
          field_modify (f := Process.preempt) (fun p => rfl) _ _ _
        simp only [remaining_dispatch, hkeep]
        rcases List.mem_append.mp hj with hj | hj
        · exact hhead j hj
        · obtain rfl := List.mem_singleton.mp hj
          exact hlt.le
      · -- the running process is at least as short as the head of the queue
        rename_i hge
        obtain rfl : r = i := Option.some.inj (hr.symm.trans hrun)
        rw [if_neg hge]
        intro j hj
        have hle : (a.proc r).remainingTime ≤ (a.proc shortest).remainingTime := not_lt.mp hge
        rcases List.mem_cons.mp hj with rfl | hj
        · exact hle
        · exact hle.trans (hhead j hj)

/-- The same in a run: the executed process is a shortest one of all that are present. -/
theorem stcf_run_shortest (procs : List Process) (n : ℕ) {i j : ℕ}
    (hrun : (SchedulerKind.stcf.load procs).executedAt n = some i)
    (hj : j ∈ (((SchedulerKind.stcf.load procs).run n).schedule n).ready) :
    ((((SchedulerKind.stcf.load procs).run n).schedule n).base.proc i).remainingTime ≤
      ((((SchedulerKind.stcf.load procs).run n).schedule n).base.proc j).remainingTime := by
  have hform : ∃ s, (SchedulerKind.stcf.load procs).run n = .stcf s :=
    run_discipline (C := .stcf) ⟨_, rfl⟩ (fun _ _ => ⟨_, rfl⟩) (fun _ _ => ⟨_, rfl⟩) procs n
  obtain ⟨s, hs⟩ := hform
  unfold Scheduler.executedAt at hrun
  rw [hs] at hrun hj ⊢
  exact stcf_schedule_shortest n s hrun j hj

variable {k : SchedulerKind} {h : ℕ → Option ℕ} {W : Workload}

/-- A scheduler that executes a process of least remaining time is a shortest-first schedule. -/
theorem shortestFirst_of (hW : drawsTickets k.new = true → TicketsFit W)
    (hshort : ∀ n i j, (k.load W.procs).executedAt n = some i →
      j ∈ (((k.load W.procs).run n).schedule n).ready →
        ((((k.load W.procs).run n).schedule n).base.proc i).remainingTime ≤
          ((((k.load W.procs).run n).schedule n).base.proc j).remainingTime) :
    W.jobSet.ShortestFirst (k.load W.procs).executedAt := by
  refine ⟨workConserving_run hW, ?_⟩
  intro n i hrun j hj hpos
  have hfeas := feasible_run k W
  have hj' : j < W.procs.length := Finset.mem_range.mp hj
  have hi' : i < W.procs.length := Finset.mem_range.mp (hfeas.mem hrun)
  have harr := (JobSet.present_pos_iff.mp hpos).1
  unfold JobSet.present
  rw [if_pos (hfeas.arrived hrun), if_pos harr]
  rcases ready_or_executed_of_present k W hj' hpos with hready | hran
  · have hle := hshort n i j hrun hready
    rw [remaining_scheduled k W n hi', remaining_scheduled k W n hj'] at hle
    exact Int.ofNat_le.mp hle
  · obtain rfl : i = j := Option.some.inj (hrun.symm.trans hran)
    exact le_rfl

/-- **STCF is a shortest-first schedule** of its workload. -/
theorem shortestFirst_stcf (W : Workload) :
    W.jobSet.ShortestFirst (SchedulerKind.stcf.load W.procs).executedAt :=
  shortestFirst_of (ticketsFit_of_no_draw (k := .stcf) rfl) fun n _ _ hrun hj =>
    stcf_run_shortest W.procs n hrun hj

/-! ## Completion times -/

theorem Workload.jobSet_burst_pos (W : Workload) : ∀ i ∈ W.jobSet.jobs, 0 < W.jobSet.burst i := by
  intro i hi
  have := W.burst_pos _ (W.proc_mem (Finset.mem_range.mp hi))
  show 0 < (W.proc i).burstTime.toNat
  omega

/-- The last tick of a process ends its list of ticks. -/
theorem ticksOf_getLast {i n k : ℕ} (hlast : (ticksOf h i n).getLast? = some k) :
    h k = some i ∧ k < n ∧ served h i (k + 1) = served h i n := by
  induction n with
  | zero => simp [ticksOf] at hlast
  | succ n ih =>
    by_cases hn : h n = some i
    · rw [ticksOf_succ_self hn, List.getLast?_concat] at hlast
      obtain rfl := Option.some.inj hlast
      exact ⟨hn, Nat.lt_succ_self _, rfl⟩
    · rw [ticksOf_succ_other hn] at hlast
      obtain ⟨hk, hlt, hserved⟩ := ih hlast
      refine ⟨hk, by omega, ?_⟩
      rw [hserved, served_succ, if_neg hn, Nat.add_zero]

/-- A job served in tick `k` for the last time of its burst completes at `k + 1`. -/
theorem completesAt_succ {J : JobSet ℕ} {i k : ℕ} (hk : h k = some i)
    (hall : served h i (k + 1) = J.burst i) : J.CompletesAt h i (k + 1) := by
  intro n
  have hbefore : served h i k < J.burst i := by
    rw [served_succ, if_pos hk] at hall
    omega
  constructor
  · intro hlt
    by_contra hge
    have := served_mono (h := h) (i := i) (not_lt.mp hge)
    omega
  · intro hlt
    have := served_mono (h := h) (i := i) (Nat.le_of_lt_succ hlt)
    omega

/-- The recorded finish time of a completed process is its completion time. -/
theorem completesAt_finishTime (k : SchedulerKind) (W : Workload) (n : ℕ) {i : ℕ}
    (hi : i ∈ ((k.load W.procs).run n).base.completed) :
    ∃ c : ℕ, (((k.load W.procs).run n).base.proc i).finishTime = c ∧
      W.jobSet.CompletesAt (k.load W.procs).executedAt i c := by
  obtain ⟨hv, -⟩ := schedInv_run k W n
  have hfin := hv.completed i hi
  have hiv := hv.inRange i (mem_places_of_completed hi)
  obtain ⟨last, hlast, hfinish⟩ := hfin.finish_eq
  obtain ⟨hran, -, hserved⟩ := ticksOf_getLast hlast
  refine ⟨last + 1, by rw [Nat.cast_succ]; exact hfinish, completesAt_succ hran ?_⟩
  have hwork := hfin.work_eq
  rw [(hv.job i hiv).burst_eq, ticksOf_length] at hwork
  show served _ i (last + 1) = (W.proc i).burstTime.toNat
  omega

/-! ## Optimality -/

/-- An assignment of at most one process to each tick that runs every process only from
its arrival on and for exactly its burst; `completion i` is one past the last tick of
process `i`. -/
structure FeasibleSchedule (W : Workload) where
  assign : ℕ → Option ℕ
  completion : ℕ → ℕ
  inRange : ∀ t i, assign t = some i → i < W.procs.length
  after_arrival : ∀ t i, assign t = some i → (W.proc i).arrivalTime ≤ (t : ℤ)
  burst_ticks : ∀ i < W.procs.length,
    ((ticksOf assign i (completion i)).length : ℤ) = (W.proc i).burstTime
  last_tick : ∀ i < W.procs.length, ∃ t, completion i = t + 1 ∧ assign t = some i
  no_later_tick : ∀ i < W.procs.length, ∀ t ≥ completion i, assign t ≠ some i

namespace FeasibleSchedule

variable {W : Workload} (f : FeasibleSchedule W)

theorem completesAt {i : ℕ} (hi : i < W.procs.length) :
    W.jobSet.CompletesAt f.assign i (f.completion i) := by
  obtain ⟨t, ht, hran⟩ := f.last_tick i hi
  have hburst := f.burst_ticks i hi
  rw [ticksOf_length, ht] at hburst
  rw [ht]
  apply completesAt_succ hran
  show served _ i (t + 1) = (W.proc i).burstTime.toNat
  omega

theorem feasible : W.jobSet.Feasible f.assign := by
  constructor
  · intro n i hn
    exact Finset.mem_range.mpr (f.inRange n i hn)
  · intro n i hn
    exact Int.toNat_le.mpr (f.after_arrival n i hn)
  · intro n i hn
    have hi := f.inRange n i hn
    apply (f.completesAt hi n).mpr
    by_contra hge
    exact f.no_later_tick i hi n (not_lt.mp hge) hn

/-- A feasible schedule that gives every process its burst is one. -/
def ofCompletes {h : ℕ → Option ℕ} (hf : W.jobSet.Feasible h) (completion : ℕ → ℕ)
    (hc : ∀ i < W.procs.length, W.jobSet.CompletesAt h i (completion i)) : FeasibleSchedule W where
  assign := h
  completion := completion
  inRange := fun _ _ ht => Finset.mem_range.mp (hf.mem ht)
  after_arrival := fun _ _ ht => Int.toNat_le.mp (hf.arrived ht)
  burst_ticks := by
    intro i hi
    have hle : served h i (completion i) ≤ (W.proc i).burstTime.toNat :=
      JobSet.served_le_burst hf i _
    have hge : ¬ served h i (completion i) < (W.proc i).burstTime.toNat :=
      fun hlt => Nat.lt_irrefl _ ((hc i hi _).mp hlt)
    have hpos := W.burst_pos _ (W.proc_mem hi)
    rw [ticksOf_length]
    omega
  last_tick := by
    intro i hi
    have hpos := W.burst_pos _ (W.proc_mem hi)
    have hstart : 0 < completion i := by
      refine (hc i hi 0).mp ?_
      rw [served_zero]
      show 0 < (W.proc i).burstTime.toNat
      omega
    obtain ⟨t, ht⟩ := Nat.exists_eq_succ_of_ne_zero hstart.ne'
    refine ⟨t, ht, ?_⟩
    have hbefore := (hc i hi t).mpr (by omega)
    have hafter := mt (hc i hi (t + 1)).mp (by omega)
    by_contra hother
    rw [served_succ, if_neg hother] at hafter
    exact hafter hbefore
  no_later_tick := by
    intro i hi t ht hran
    exact Nat.not_lt.mpr ht ((hc i hi t).mp (hf.unfinished hran))

end FeasibleSchedule

/-- The total turnaround of a feasible schedule, as a natural number and as the source
computes it. -/
theorem sum_turnaround_cast (hf : W.jobSet.Feasible h) {c : ℕ → ℕ}
    (hc : ∀ i ∈ W.jobSet.jobs, W.jobSet.CompletesAt h i (c i)) :
    ((∑ i ∈ W.jobSet.jobs, (c i - W.jobSet.arrival i) : ℕ) : ℤ) =
      ∑ i ∈ Finset.range W.procs.length, ((c i : ℤ) - (W.proc i).arrivalTime) := by
  rw [Nat.cast_sum]
  apply Finset.sum_congr rfl
  intro i hi
  have hmem := W.proc_mem (Finset.mem_range.mp hi)
  have hburst := W.burst_pos _ hmem
  have harr := W.arrival_nonneg _ hmem
  have hlt : (W.proc i).arrivalTime.toNat < c i := (hc i hi).arrival_lt hf (by
    show 0 < (W.proc i).burstTime.toNat
    omega)
  show ((c i - (W.proc i).arrivalTime.toNat : ℕ) : ℤ) = _
  omega

/-- The turnarounds that a finished run records are those of its schedule. -/
theorem sum_turnaround_run (k : SchedulerKind) (W : Workload) (n : ℕ)
    (hall : ∀ i < W.procs.length, i ∈ ((k.load W.procs).run n).base.completed) :
    ∃ c : ℕ → ℕ, (∀ i ∈ W.jobSet.jobs, W.jobSet.CompletesAt (k.load W.procs).executedAt i (c i)) ∧
      ∑ i ∈ Finset.range W.procs.length, (((k.load W.procs).run n).base.proc i).turnaround =
        ((∑ i ∈ W.jobSet.jobs, (c i - W.jobSet.arrival i) : ℕ) : ℤ) := by
  obtain ⟨hv, -⟩ := schedInv_run k W n
  have hfinish : ∀ i ∈ W.jobSet.jobs, ∃ c : ℕ,
      (((k.load W.procs).run n).base.proc i).finishTime = c ∧
        W.jobSet.CompletesAt (k.load W.procs).executedAt i c := fun i hi =>
    completesAt_finishTime k W n (hall i (Finset.mem_range.mp hi))
  choose! c hc using hfinish
  refine ⟨c, fun i hi => (hc i hi).2, ?_⟩
  rw [sum_turnaround_cast (feasible_run k W) fun i hi => (hc i hi).2]
  apply Finset.sum_congr rfl
  intro i hi
  have hcomp := hall i (Finset.mem_range.mp hi)
  have hturn : (((k.load W.procs).run n).base.proc i).turnaround = _ :=
    (hv.completed i hcomp).turnaround_eq
  have hjob := hv.job i (hv.inRange i (mem_places_of_completed hcomp))
  rw [hturn, hjob.arrival_eq, ← (hc i hi).1]
  rfl

/-- In a work-conserving run every process has completed by some tick and stays so. -/
theorem completes_run (hW : drawsTickets k.new = true → TicketsFit W) :
    ∃ N, ∀ n ≥ N, ∀ i < W.procs.length, i ∈ ((k.load W.procs).run n).base.completed := by
  obtain ⟨N, hN⟩ := (workConserving_run hW).exists_finished
  refine ⟨N, fun n hn i hi => ?_⟩
  apply (completed_iff_left k W n hi).mpr
  have hzero := Finset.sum_eq_zero_iff.mp hN i (Finset.mem_range.mpr hi)
  have hmono := served_mono (h := (k.load W.procs).executedAt) (i := i) hn
  unfold JobSet.left at hzero ⊢
  omega

/-- A finished STCF run against any feasible schedule. -/
theorem stcf_turnaround_le (f : FeasibleSchedule W) {n : ℕ}
    (hall : ∀ i < W.procs.length, i ∈ ((SchedulerKind.stcf.load W.procs).run n).base.completed) :
    ∑ i ∈ Finset.range W.procs.length,
        (((SchedulerKind.stcf.load W.procs).run n).base.proc i).turnaround ≤
      ∑ i ∈ Finset.range W.procs.length, ((f.completion i : ℤ) - (W.proc i).arrivalTime) := by
  have hother : ∀ i ∈ W.jobSet.jobs, W.jobSet.CompletesAt f.assign i (f.completion i) :=
    fun i hi => f.completesAt (Finset.mem_range.mp hi)
  obtain ⟨c, hc, hsum⟩ := sum_turnaround_run .stcf W n hall
  rw [hsum, ← sum_turnaround_cast f.feasible hother]
  apply Int.ofNat_le.mpr
  exact (shortestFirst_stcf W).total_turnaround_le f.feasible hc hother

/-- **STCF minimises the total turnaround.**  From some tick on every process of an STCF
run has completed; and whenever all have, the recorded turnarounds add up to at most the total of
completion minus arrival of any feasible schedule of the workload.
SOURCE: pkg/cpu/sched_sjf.go:139-205, README.md:347-349 -/
theorem stcf_minimises_turnaround (W : Workload) (f : FeasibleSchedule W) :
    let s (n : ℕ) := (SchedulerKind.stcf.load W.procs).run n
    (∃ N, ∀ n ≥ N, ∀ i < W.procs.length, i ∈ (s n).base.completed) ∧
      ∀ n, (∀ i < W.procs.length, i ∈ (s n).base.completed) →
        ∑ i ∈ Finset.range W.procs.length, ((s n).base.proc i).turnaround ≤
          ∑ i ∈ Finset.range W.procs.length, ((f.completion i : ℤ) - (W.proc i).arrivalTime) :=
  ⟨completes_run (ticketsFit_of_no_draw (k := .stcf) rfl), fun _ => stcf_turnaround_le f⟩

/-- In particular no other scheduler of the simulator has a smaller total: its run is a feasible
schedule. -/
theorem stcf_turnaround_le_run {n m : ℕ}
    (hstcf : ∀ i < W.procs.length, i ∈ ((SchedulerKind.stcf.load W.procs).run n).base.completed)
    (hother : ∀ i < W.procs.length, i ∈ ((k.load W.procs).run m).base.completed) :
    ∑ i ∈ Finset.range W.procs.length,
        (((SchedulerKind.stcf.load W.procs).run n).base.proc i).turnaround ≤
      ∑ i ∈ Finset.range W.procs.length, (((k.load W.procs).run m).base.proc i).turnaround := by
  obtain ⟨c, hc, hsum⟩ := sum_turnaround_run k W m hother
  rw [hsum, sum_turnaround_cast (feasible_run k W) hc]
  exact stcf_turnaround_le (.ofCompletes (feasible_run k W) c fun i hi =>
    hc i (Finset.mem_range.mpr hi)) hstcf

end OsSimulator.Analysis
