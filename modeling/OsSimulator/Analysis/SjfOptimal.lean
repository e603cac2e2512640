import OsSimulator.Analysis.StcfOptimal

/-!
# SJF minimises the total turnaround of processes that arrive together

SJF takes the process of the shortest burst when the slot is free and never takes it out
again.  When all processes arrive at one tick, a process in the ready queue is as it was
added, and none of them has a shorter burst than the running one (`waitsBehind_run`); so a
run of SJF is a shortest-first schedule, as a run of STCF is on every workload.  It is
compared with the schedule that runs the processes back to back in a given order
(`Library.serial`), whose completion times add up to `backToBack`.
-/

set_option autoImplicit false

namespace OsSimulator.Analysis

open Model Interface Library

/-! ## One tick of SJF -/

theorem burst_dispatch (t : ℤ) (b : SchedBase) (i j : ℕ) :
    ((b.dispatch t i).proc j).burstTime = (b.proc j).burstTime := by
  apply field_modify
  intro p
  unfold Process.dispatch
  split <;> rfl

section Schedule

variable (t : ℤ) (s : SJFScheduler)

theorem sjf_schedule_running {i : ℕ} (hrun : s.running = some i) :
    (s.schedule t).running = some i := by
  have harrive : (s.toReadyBase.arrive t).running = some i := hrun
  unfold SJFScheduler.schedule
  simp only [harrive]

theorem sjf_schedule_ready {j : ℕ} (hj : j ∈ (s.schedule t).readyQueue) :
    j ∈ s.readyQueue ++ arrivals t s.allProcesses := by
  show j ∈ (s.toReadyBase.arrive t).readyQueue
  unfold SJFScheduler.schedule at hj
  generalize s.toReadyBase.arrive t = a at hj ⊢
  dsimp only at hj
  split at hj
  · exact hj
  · split at hj
    · exact hj
    · rename_i i rest hsort
      have hperm := perm_sortByKey (fun i => (a.proc i).burstTime) a.readyQueue
      rw [hsort] at hperm
      exact hperm.mem_iff.mp (List.mem_cons_of_mem i hj)

/-- A free slot goes to a process of the shortest burst. -/
theorem sjf_schedule_shortest (hfree : s.running = none) {i : ℕ}
    (hrun : (s.schedule t).running = some i) :
    ∀ j ∈ (s.schedule t).readyQueue,
      ((s.schedule t).proc i).burstTime ≤ ((s.schedule t).proc j).burstTime := by
  have harrive : (s.toReadyBase.arrive t).running = none := hfree
  unfold SJFScheduler.schedule at *
  generalize s.toReadyBase.arrive t = a at *
  simp only [harrive] at hrun ⊢
  split at hrun
  · exact absurd (harrive.symm.trans hrun) (by simp)
  · rename_i hsort
    obtain rfl := Option.some.inj hrun
    intro j hj
    simp only [burst_dispatch]
    exact sortByKey_head_le hsort j hj

end Schedule

/-! ## Runs -/

/-- The ready processes have not been executed, and none is shorter than the running one. -/
structure WaitsBehind (W : Workload) (h : ℕ → Option ℕ) (n : ℕ) (s : Scheduler) : Prop where
  unserved : ∀ j ∈ s.ready, ticksOf h j n = []
  shortest : ∀ i, s.base.running = some i → ∀ j ∈ s.ready,
    (W.proc i).burstTime ≤ (W.proc j).burstTime

/-- SJF after `n` ticks. -/
abbrev sjfAfter (W : Workload) (n : ℕ) : Scheduler := (SchedulerKind.sjf.load W.procs).run n

abbrev sjfRan (W : Workload) : ℕ → Option ℕ := (SchedulerKind.sjf.load W.procs).executedAt

theorem sjf_run (W : Workload) (n : ℕ) : ∃ s, sjfAfter W n = .sjf s :=
  run_discipline (C := .sjf) ⟨_, rfl⟩ (fun _ _ => ⟨_, rfl⟩) (fun _ _ => ⟨_, rfl⟩) W.procs n

section Run

variable {W : Workload} {n : ℕ}

/-- A tick keeps the running process, or chooses one of the shortest; nothing arrives while a
process is running. -/
theorem WaitsBehind.schedule (hw : WaitsBehind W (sjfRan W) n (sjfAfter W n))
    (harr : (sjfAfter W n).base.running ≠ none →
      arrivals n (sjfAfter W n).base.allProcesses = []) :
    WaitsBehind W (sjfRan W) n ((sjfAfter W n).schedule n) := by
  have hmid : SchedInv W (sjfRan W) n (n + 1) (Chosen (sjfRan W) n (n + 1))
      (schedView ((sjfAfter W n).schedule n)) := schedInv_scheduled .sjf W n
  have hpre : SchedInv W (sjfRan W) n n (Slot (sjfRan W) n n) (schedView (sjfAfter W n)) :=
    (schedInv_run .sjf W n).1
  obtain ⟨s, hs⟩ := sjf_run W n
  rw [hs] at hw harr hmid hpre ⊢
  constructor
  · intro j hj
    rcases List.mem_append.mp (sjf_schedule_ready n s hj) with hj | hj
    · exact hw.unserved j hj
    · obtain ⟨hlt, hout, -, -⟩ := hpre.placed.mem_newcomers hj
      exact (hpre.pending j hlt hout).ticks_eq
  · intro i hi j hj
    cases hrun : s.running with
    | some r =>
      obtain rfl : r = i := Option.some.inj ((sjf_schedule_running n s hrun).symm.trans hi)
      have hmem := sjf_schedule_ready n s hj
      have hnone : arrivals n s.allProcesses = [] := harr (by simp [Scheduler.base, hrun])
      rw [hnone, List.append_nil] at hmem
      exact hw.shortest r hrun j hmem
    | none =>
      have hle := sjf_schedule_shortest n s hrun hi j hj
      have hbi := (hmid.job i (hmid.inRange i (mem_places_of_running hi))).burst_eq
      have hbj := (hmid.job j (hmid.inRange j (mem_places_of_ready hj))).burst_eq
      rw [← hbi, ← hbj]
      exact hle

theorem WaitsBehind.tick (hw : WaitsBehind W (sjfRan W) n ((sjfAfter W n).schedule n)) :
    WaitsBehind W (sjfRan W) (n + 1) (sjfAfter W (n + 1)) := by
  have hready : (sjfAfter W (n + 1)).ready = ((sjfAfter W n).schedule n).ready ∧
      ((sjfAfter W (n + 1)).base.running = none ∨
        (sjfAfter W (n + 1)).base.running = ((sjfAfter W n).schedule n).base.running) := by
    show ((sjfAfter W n).tick n).ready = ((sjfAfter W n).schedule n).ready ∧
      (((sjfAfter W n).tick n).base.running = none ∨
        ((sjfAfter W n).tick n).base.running = ((sjfAfter W n).schedule n).base.running)
    obtain ⟨s, hs⟩ := sjf_run W n
    rw [hs]
    exact ⟨rfl, execute_running _ _ _⟩
  obtain ⟨hready, hrunning⟩ := hready
  constructor
  · intro j hj
    rw [hready] at hj
    rw [ticksOf_succ_other (executed_ne_of_ready .sjf W hj)]
    exact hw.unserved j hj
  · intro i hi j hj
    rw [hready] at hj
    rcases hrunning with hfree | hkept
    · exact absurd (hfree.symm.trans hi) (by simp)
    · exact hw.shortest i (hkept.symm.trans hi) j hj

variable {a : ℤ} (htogether : ∀ p ∈ W.procs, p.arrivalTime = a)
include htogether

/-- Nothing arrives after a process has run. -/
theorem arrivals_eq_nil (hrun : (sjfAfter W n).base.running ≠ none) :
    arrivals n (sjfAfter W n).base.allProcesses = [] := by
  have hpre := (schedInv_run .sjf W n).1
  obtain ⟨r, hr⟩ := Option.ne_none_iff_exists'.mp hrun
  have hplace := mem_places_of_running (v := schedView (sjfAfter W n)) hr
  have harrived : ((schedView (sjfAfter W n)).proc r).arrivalTime < n :=
    (hpre.running r hr).2.1.arrived
  rw [(hpre.job r (hpre.inRange r hplace)).arrival_eq,
    htogether _ (W.proc_mem (hpre.lt_length hplace))] at harrived
  rw [hpre.arrivals_eq, arrivingAt, List.filter_eq_nil_iff]
  intro i hi
  rw [htogether _ (W.proc_mem (List.mem_range.mp hi))]
  simpa using ne_of_lt harrived

theorem waitsBehind_run (n : ℕ) : WaitsBehind W (sjfRan W) n (sjfAfter W n) := by
  induction n with
  | zero =>
    have hempty : (sjfAfter W 0).ready = [] := (load_spec .sjf W.procs).2.1
    exact ⟨fun j _ => rfl, fun i _ j hj => absurd hj (by simp [hempty])⟩
  | succ n ih => exact (ih.schedule (arrivals_eq_nil htogether)).tick

/-- **SJF is a shortest-first schedule** of processes that arrive together. -/
theorem shortestFirst_sjf : W.jobSet.ShortestFirst (sjfRan W) := by
  refine shortestFirst_of (ticketsFit_of_no_draw rfl) fun n i j hrun hj => ?_
  have hw := (waitsBehind_run htogether n).schedule (arrivals_eq_nil htogether)
  have hi' : i < W.procs.length := Finset.mem_range.mp ((feasible_run .sjf W).mem hrun)
  have hj' : j < W.procs.length := (schedInv_scheduled .sjf W n).lt_length (mem_places_of_ready hj)
  have hburst := hw.shortest i hrun j hj
  have hserved : served (sjfRan W) j n = 0 := by
    rw [← ticksOf_length, hw.unserved j hj]
    rfl
  rw [remaining_scheduled .sjf W n hi', remaining_scheduled .sjf W n hj']
  simp only [JobSet.left, Workload.jobSet, hserved]
  omega

end Run

/-! ## Back to back -/

/-- The sum of the completion times when the processes of the list run one after the other from
`now` on. -/
def backToBack (burst : ℕ → ℤ) : ℤ → List ℕ → ℤ
  | _, [] => 0
  | now, i :: rest => (now + burst i) + backToBack burst (now + burst i) rest

/-- The completion times of the serial schedule, along its order. -/
theorem sum_completion_serial {W : Workload} {order : List ℕ}
    (hperm : order.Perm (List.range W.procs.length)) {c : ℕ → ℕ}
    (hc : ∀ i ∈ W.jobSet.jobs, W.jobSet.CompletesAt (serial W.jobSet.burst order) i (c i)) :
    ∑ i ∈ Finset.range W.procs.length, (c i : ℤ) =
      backToBack (fun i => (W.proc i).burstTime) 0 order := by
  have hnd : order.Nodup := hperm.nodup_iff.mpr List.nodup_range
  have hrange : ∀ i, i ∈ order ↔ i < W.procs.length := fun i => by
    rw [hperm.mem_iff, List.mem_range]
  have hsum : ∀ rest before, order = before ++ rest →
      (rest.map fun i => (c i : ℤ)).sum =
        backToBack (fun i => (W.proc i).burstTime) ((before.map W.jobSet.burst).sum : ℕ) rest := by
    intro rest
    induction rest with
    | nil => exact fun _ _ => rfl
    | cons i rest ih =>
      intro before hsplit
      have hi : i < W.procs.length := (hrange i).mp (by simp [hsplit])
      have hi' : i ∈ W.jobSet.jobs := Finset.mem_range.mpr hi
      have hburst : (W.jobSet.burst i : ℤ) = (W.proc i).burstTime := by
        have := W.burst_pos _ (W.proc_mem hi)
        show ((W.proc i).burstTime.toNat : ℤ) = _
        omega
      have hdone := (hc i hi').unique (completesAt_serial hnd hsplit (W.jobSet_burst_pos i hi'))
      have hnext := ih (before ++ [i]) (by simp [hsplit])
      rw [List.map_append, List.sum_append, List.map_singleton, List.sum_singleton, Nat.cast_add,
        hburst] at hnext
      rw [List.map_cons, List.sum_cons, hnext, backToBack, hdone, Nat.cast_add, hburst]
  have hset : order.toFinset = Finset.range W.procs.length := by
    ext i
    rw [List.mem_toFinset, hrange, Finset.mem_range]
  rw [← hset, List.sum_toFinset _ hnd]
  exact hsum order [] rfl

/-- **SJF minimises the total turnaround** of processes that arrive at tick `0`.  From some tick
on all have completed, and then the recorded turnarounds add up to at most the sum of the
completion times of the processes run back to back in any order.
SOURCE: pkg/cpu/sched_sjf.go:38-95, README.md:344-346 -/
theorem sjf_minimises_turnaround (W : Workload) (hzero : ∀ p ∈ W.procs, p.arrivalTime = 0) :
    let after := (SchedulerKind.sjf.load W.procs).run
    let AllCompleted := fun n => ∀ i < W.procs.length, i ∈ (after n).base.completed
    (∃ N, ∀ n ≥ N, AllCompleted n) ∧
      ∀ n, AllCompleted n → ∀ order : List ℕ, order.Perm (List.range W.procs.length) →
        ∑ i ∈ Finset.range W.procs.length, ((after n).base.proc i).turnaround ≤
          backToBack (fun i => (W.proc i).burstTime) 0 order := by
  intro after AllCompleted
  refine ⟨completes_run (ticketsFit_of_no_draw rfl), ?_⟩
  intro n hall order hperm
  have hnd : order.Nodup := hperm.nodup_iff.mpr List.nodup_range
  have hmem : ∀ i, i ∈ order ↔ i ∈ W.jobSet.jobs := fun i => by
    rw [hperm.mem_iff, List.mem_range]
    exact Finset.mem_range.symm
  have harrival : ∀ i ∈ W.jobSet.jobs, W.jobSet.arrival i = 0 := fun i hi => by
    show (W.proc i).arrivalTime.toNat = 0
    rw [hzero _ (W.proc_mem (Finset.mem_range.mp hi))]
    rfl
  have hserial : W.jobSet.Feasible (serial W.jobSet.burst order) :=
    feasible_serial hnd (fun i hi => (hmem i).mp hi) fun i hi => harrival i ((hmem i).mp hi)
  have hother : ∀ i ∈ W.jobSet.jobs, ∃ c,
      W.jobSet.CompletesAt (serial W.jobSet.burst order) i c := by
    intro i hi
    obtain ⟨before, later, hsplit⟩ := List.append_of_mem ((hmem i).mpr hi)
    exact ⟨_, completesAt_serial hnd hsplit (W.jobSet_burst_pos i hi)⟩
  choose! c' hc' using hother
  obtain ⟨c, hc, hsum⟩ := sum_turnaround_run .sjf W n hall
  have hle := (shortestFirst_sjf hzero).total_turnaround_le hserial hc hc'
  have hserialSum : ∑ i ∈ W.jobSet.jobs, (c' i - W.jobSet.arrival i) = ∑ i ∈ W.jobSet.jobs, c' i :=
    Finset.sum_congr rfl fun i hi => by rw [harrival i hi, Nat.sub_zero]
  rw [hserialSum] at hle
  calc ∑ i ∈ Finset.range W.procs.length, ((after n).base.proc i).turnaround
      = ((∑ i ∈ W.jobSet.jobs, (c i - W.jobSet.arrival i) : ℕ) : ℤ) := hsum
    _ ≤ ((∑ i ∈ W.jobSet.jobs, c' i : ℕ) : ℤ) := Int.ofNat_le.mpr hle
    _ = ∑ i ∈ Finset.range W.procs.length, (c' i : ℤ) := Nat.cast_sum _ _
    _ = backToBack (fun i => (W.proc i).burstTime) 0 order := sum_completion_serial hperm hc'

/-- A long process and a short one, both there from the start. -/
def longFirst : Workload where
  procs := [newProcess 1 "P1" 0 3, newProcess 2 "P2" 0 1]
  fresh := by simp [Process.clone, newProcess]
  arrival_nonneg := by simp [newProcess]
  burst_pos := by simp [newProcess]

/-- SJF runs the short one first; in the order in which they were added the sum is `7`. -/
theorem sjf_minimises_turnaround_longFirst :
    let s := (SchedulerKind.sjf.load longFirst.procs).run 4
    (s.base.proc 0).turnaround + (s.base.proc 1).turnaround = 5 ∧
      backToBack (fun i => (longFirst.proc i).burstTime) 0 [0, 1] = 7 ∧
      ∑ i ∈ Finset.range 2, (s.base.proc i).turnaround ≤ 7 :=
  ⟨by decide, by decide, (sjf_minimises_turnaround longFirst (by decide)).2 4 (by decide) [0, 1]
    (List.Perm.refl _)⟩

end OsSimulator.Analysis
