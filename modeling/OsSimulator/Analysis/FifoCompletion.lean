import OsSimulator.Analysis.StcfOptimal
import OsSimulator.Library.InOrderService

/-!
# FIFO serves in the order of arrival

The processes that have entered FIFO, read as completed, running and ready ones
(`entered`), are at every tick the arrived processes in the stable order of their
arrival times (`entered_fifo`).  Hence a process is executed only when all processes
before it in that order are done, and a run of FIFO is a schedule in the sense of
`Library.InOrderService`; the recurrence of the finish times is the one proved there.
-/

set_option autoImplicit false

namespace OsSimulator.Analysis

open Model Interface Library

/-! ## The order of service -/

/-- The processes in the order of their arrival; processes that arrive together stay in the
order in which they were added. -/
def arrivalOrder (W : Workload) : List ℕ :=
  sortByKey (fun i => (W.proc i).arrivalTime) (List.range W.procs.length)

/-- The processes that FIFO has seen: completed, running, ready. -/
def entered (s : Scheduler) : List ℕ := s.base.completed ++ s.base.running.toList ++ s.ready

section Order

variable (W : Workload)

theorem mem_arrivalOrder {i : ℕ} : i ∈ arrivalOrder W ↔ i < W.procs.length := by
  unfold arrivalOrder
  rw [(perm_sortByKey _ _).mem_iff, List.mem_range]

theorem nodup_arrivalOrder : (arrivalOrder W).Nodup :=
  (perm_sortByKey _ _).nodup_iff.mpr List.nodup_range

theorem length_arrivalOrder : (arrivalOrder W).length = W.procs.length := by
  unfold arrivalOrder
  rw [(perm_sortByKey _ _).length_eq, List.length_range]

theorem arrivalOrder_sorted :
    (arrivalOrder W).Pairwise fun i j => (W.proc i).arrivalTime ≤ (W.proc j).arrivalTime :=
  List.pairwise_insertionSort _ _

theorem arrivalOrder_succ (n : ℕ) :
    (arrivalOrder W).filter (fun i => (W.proc i).arrivalTime < (n : ℤ) + 1) =
      (arrivalOrder W).filter (fun i => (W.proc i).arrivalTime < n) ++ arrivingAt W n := by
  simp only [Int.lt_add_one_iff]
  exact filter_le_insertionSort (fun i => (W.proc i).arrivalTime) (List.range W.procs.length) n

end Order

/-! ## The steps of FIFO -/

theorem fifo_run (procs : List Process) (n : ℕ) :
    ∃ s, (SchedulerKind.fifo.load procs).run n = .fifo s :=
  run_discipline (C := .fifo) ⟨_, rfl⟩ (fun _ _ => ⟨_, rfl⟩) (fun _ _ => ⟨_, rfl⟩) procs n

/-- Newcomers enter at the back, and a dispatch takes the first of the queue. -/
theorem fifo_schedule_entered (t : ℤ) (s : FIFOScheduler) :
    entered (.fifo (s.schedule t)) = entered (.fifo s) ++ arrivals t s.allProcesses := by
  have harrive : entered (.fifo ⟨s.toReadyBase.arrive t⟩) =
      entered (.fifo s) ++ arrivals t s.allProcesses := by
    show s.completed ++ s.running.toList ++ (s.readyQueue ++ arrivals t s.allProcesses) = _
    rw [← List.append_assoc]
    rfl
  rw [← harrive]
  unfold FIFOScheduler.schedule
  generalize s.toReadyBase.arrive t = a
  dsimp only
  split
  · rename_i i rest hrun hready
    simp [entered, Scheduler.base, Scheduler.ready, SchedBase.dispatch, hrun, hready]
  · rfl

/-- A process that completes leaves the slot for the back of the completed ones. -/
theorem executed_order {t : ℤ} {v v' : SchedView} (hexe : Executed t v v')
    (hready : v'.ready = v.ready) :
    v'.completed ++ v'.running.toList ++ v'.ready = v.completed ++ v.running.toList ++ v.ready := by
  rw [hready]
  cases hexe with
  | idle free hr => rw [hr.running_eq, hr.completed_eq]
  | work i slot slot' _ _ _ completed_eq => rw [slot, slot', completed_eq]
  | finish i slot free _ _ _ completed_eq =>
    rw [slot, free, completed_eq]
    simp

section Run

variable (W : Workload)

theorem entered_schedule (n : ℕ)
    (h : entered ((SchedulerKind.fifo.load W.procs).run n) =
      (arrivalOrder W).filter fun i => (W.proc i).arrivalTime < n) :
    entered (((SchedulerKind.fifo.load W.procs).run n).schedule n) =
      (arrivalOrder W).filter fun i => (W.proc i).arrivalTime < (n : ℤ) + 1 := by
  have harrivals := (schedInv_run .fifo W n).1.arrivals_eq
  obtain ⟨s, hs⟩ := fifo_run W.procs n
  rw [hs] at h harrivals ⊢
  rw [arrivalOrder_succ, ← h, ← harrivals]
  exact fifo_schedule_entered n s

/-- **The order of arrival** is kept through completed, running and ready processes. -/
theorem entered_fifo (n : ℕ) : entered ((SchedulerKind.fifo.load W.procs).run n) =
    (arrivalOrder W).filter fun i => (W.proc i).arrivalTime < n := by
  induction n with
  | zero =>
    obtain ⟨hb, hr, -⟩ := load_spec .fifo W.procs
    have hnone : (arrivalOrder W).filter (fun i => (W.proc i).arrivalTime < (0 : ℕ)) = [] := by
      rw [List.filter_eq_nil_iff]
      intro i hi
      have := W.arrival_nonneg _ (W.proc_mem ((mem_arrivalOrder W).mp hi))
      simpa using this
    rw [hnone]
    show entered (SchedulerKind.fifo.load W.procs) = []
    rw [entered, hb, hr]
    rfl
  | succ n ih =>
    have hmid := entered_schedule W n ih
    have hexe := executed_tick n _ (schedInv_scheduled .fifo W n).placed.inRange
    have hready : (((SchedulerKind.fifo.load W.procs).run n).tick n).ready =
        (((SchedulerKind.fifo.load W.procs).run n).schedule n).ready := by
      obtain ⟨s, hs⟩ := fifo_run W.procs n
      rw [hs]
      rfl
    push_cast
    rw [← hmid]
    exact executed_order hexe hready

/-- When a process is executed, the processes before it in the order have completed. -/
theorem fifo_earlier_completed {before after : List ℕ} {i : ℕ}
    (hsplit : arrivalOrder W = before ++ i :: after) {n : ℕ}
    (hran : (SchedulerKind.fifo.load W.procs).executedAt n = some i) {j : ℕ} (hj : j ∈ before) :
    j ∈ (((SchedulerKind.fifo.load W.procs).run n).schedule n).base.completed := by
  have hmid := entered_schedule W n (entered_fifo W n)
  have hsorted := arrivalOrder_sorted W
  have hnd := (nodup_arrivalOrder W).filter fun i => (W.proc i).arrivalTime < (n : ℤ) + 1
  have hin : (W.proc i).arrivalTime < (n : ℤ) + 1 := by
    have : (W.proc i).arrivalTime.toNat ≤ n := (feasible_run .fifo W).arrived hran
    omega
  have hjin : (W.proc j).arrivalTime < (n : ℤ) + 1 := by
    rw [hsplit] at hsorted
    have := (List.pairwise_append.mp hsorted).2.2 j hj i List.mem_cons_self
    omega
  have hslot : (((SchedulerKind.fifo.load W.procs).run n).schedule n).base.running = some i := hran
  -- both sides are the processes before `i`, then `i`, then those behind it
  rw [hsplit, List.filter_append, List.filter_cons_of_pos (by simpa using hin)] at hmid hnd
  rw [entered, hslot, Option.toList_some, List.append_assoc, List.singleton_append] at hmid
  have hbefore := (List.append_cons_inj_of_notMem ?_ ?_).mp hmid.symm
  · rw [← hbefore.1]
    exact List.mem_filter.mpr ⟨hj, by simpa using hjin⟩
  · exact fun hi => List.disjoint_of_nodup_append hnd hi List.mem_cons_self
  · exact (List.nodup_cons.mp (List.nodup_append.mp hnd).2.1).1

/-- **FIFO serves in the order of arrival.** -/
theorem inOrder_fifo :
    W.jobSet.InOrder (SchedulerKind.fifo.load W.procs).executedAt (arrivalOrder W) := by
  refine ⟨workConserving_run (ticketsFit_of_no_draw rfl), ?_, ?_⟩
  · intro i
    rw [mem_arrivalOrder]
    exact Finset.mem_range.symm
  · intro before after i hsplit n hran j hj
    have hcomp := fifo_earlier_completed W hsplit hran hj
    have hj' : j < W.procs.length := by
      rw [← mem_arrivalOrder, hsplit]
      exact List.mem_append_left _ hj
    have hleft := remaining_scheduled .fifo W n hj'
    have hzero : ((((SchedulerKind.fifo.load W.procs).run n).schedule n).base.proc j).remainingTime
        = 0 := ((schedInv_scheduled .fifo W n).completed j hcomp).remaining_eq
    omega

/-- When all are completed, they are so in the order of arrival. -/
theorem fifo_completed_eq {n : ℕ}
    (hall : ∀ i < W.procs.length, i ∈ ((SchedulerKind.fifo.load W.procs).run n).base.completed) :
    ((SchedulerKind.fifo.load W.procs).run n).base.completed = arrivalOrder W := by
  have hsub : (entered ((SchedulerKind.fifo.load W.procs).run n)).Sublist (arrivalOrder W) := by
    rw [entered_fifo]
    exact List.filter_sublist
  have hcompleted :=
    ((List.sublist_append_left _ _).trans (List.sublist_append_left _ _)).trans hsub
  apply hcompleted.eq_of_length_le
  rw [length_arrivalOrder]
  exact le_length_of_all_mem hall

section Completed

variable {W} {before later : List ℕ} {i n : ℕ} (hsplit : arrivalOrder W = before ++ i :: later)
  (hi : i ∈ ((SchedulerKind.fifo.load W.procs).run n).base.completed)
include hsplit hi

theorem fifo_startTime :
    (((SchedulerKind.fifo.load W.procs).run n).base.proc i).startTime =
      max (W.jobSet.doneAt 0 before) (W.jobSet.arrival i) := by
  have hserved := (inOrder_fifo W).servedFrom W.jobSet_burst_pos hsplit
  obtain ⟨k, hhead, hstart, -⟩ := ((schedInv_run .fifo W n).1.completed i hi).start_ok
  obtain ⟨hran, -, hnil⟩ := ticksOf_head hhead
  -- the first executed tick is the first of the interval
  have hle := ((hserved k).mp hran).1
  have hge : ¬ max (W.jobSet.doneAt 0 before) (W.jobSet.arrival i) < k := by
    intro hlt
    have hi' : i ∈ W.jobSet.jobs := ((inOrder_fifo W).mem_order i).mp (by simp [hsplit])
    have hfirst := (hserved _).mpr ⟨le_rfl, Nat.lt_add_of_pos_right (W.jobSet_burst_pos i hi')⟩
    have hmem := mem_ticksOf.mpr ⟨hlt, hfirst⟩
    rw [hnil] at hmem
    exact List.not_mem_nil hmem
  have hstart' : (((SchedulerKind.fifo.load W.procs).run n).base.proc i).startTime = k := hstart
  omega

theorem fifo_finishTime :
    (((SchedulerKind.fifo.load W.procs).run n).base.proc i).finishTime =
      W.jobSet.doneAt 0 (before ++ [i]) := by
  obtain ⟨c, hfinish, hc⟩ := completesAt_finishTime .fifo W n hi
  rw [hfinish, hc.unique ((inOrder_fifo W).completesAt W.jobSet_burst_pos hsplit)]

/-- The step of the recurrence, in the fields of the process. -/
theorem fifo_finishTime_eq :
    let p := ((SchedulerKind.fifo.load W.procs).run n).base.proc i
    p.finishTime = max (W.jobSet.doneAt 0 before : ℤ) p.arrivalTime + p.burstTime := by
  intro p
  have hi' : i < W.procs.length := by
    rw [← mem_arrivalOrder, hsplit]
    simp
  have harrival : p.arrivalTime = (W.proc i).arrivalTime := (job_run .fifo W n hi').arrival_eq
  have hburst : p.burstTime = (W.proc i).burstTime := (job_run .fifo W n hi').burst_eq
  have hnonneg := W.arrival_nonneg _ (W.proc_mem hi')
  have hpos := W.burst_pos _ (W.proc_mem hi')
  have hfinish : p.finishTime = W.jobSet.doneAt 0 (before ++ [i]) := fifo_finishTime hsplit hi
  rw [hfinish, harrival, hburst, JobSet.doneAt_concat]
  simp only [Workload.jobSet]
  omega

/-- A completed process was executed in one interval. -/
theorem fifo_uninterrupted (t : ℕ) :
    (SchedulerKind.fifo.load W.procs).executedAt t = some i ↔
      (((SchedulerKind.fifo.load W.procs).run n).base.proc i).startTime ≤ t ∧
        t < (((SchedulerKind.fifo.load W.procs).run n).base.proc i).finishTime := by
  rw [(inOrder_fifo W).servedFrom W.jobSet_burst_pos hsplit t, fifo_startTime hsplit hi,
    fifo_finishTime hsplit hi, JobSet.doneAt_concat]
  omega

end Completed

end Run

/-- **FIFO follows the first-come recurrence.**  From some tick on all processes have completed.
Then they are listed in the stable order of their arrival times, each was executed in all ticks
from its start to its finish and in no others, and each finished its burst after its arrival or
the end of the process before it, whichever is later.
SOURCE: pkg/cpu/sched_fifo.go:37-96 -/
theorem fifo_recurrence (W : Workload) :
    let after := (SchedulerKind.fifo.load W.procs).run
    let AllCompleted := fun n => ∀ i < W.procs.length, i ∈ (after n).base.completed
    (∃ N, ∀ n ≥ N, AllCompleted n) ∧
      ∀ n, AllCompleted n →
        let completed := (after n).base.completed
        let proc := (after n).base.proc
        completed = sortByKey (fun i => (W.proc i).arrivalTime) (List.range W.procs.length) ∧
        (∀ i < W.procs.length, ∀ t : ℕ,
          (SchedulerKind.fifo.load W.procs).executedAt t = some i ↔
            (proc i).startTime ≤ t ∧ t < (proc i).finishTime) ∧
        ∀ earlier i later, completed = earlier ++ i :: later →
          (proc i).finishTime =
            max (earlier.getLast?.elim 0 fun j => (proc j).finishTime) (proc i).arrivalTime +
              (proc i).burstTime := by
  intro after AllCompleted
  refine ⟨completes_run (ticketsFit_of_no_draw rfl), ?_⟩
  intro n hall completed proc
  have horder : completed = arrivalOrder W := fifo_completed_eq W hall
  refine ⟨horder, ?_, ?_⟩
  · intro i hi t
    obtain ⟨earlier, later, hsplit⟩ := List.append_of_mem ((mem_arrivalOrder W).mpr hi)
    exact fifo_uninterrupted hsplit (hall i hi) t
  · intro earlier i later hsplit
    have hcomp : ∀ j ∈ earlier ++ i :: later, j ∈ completed := fun j hj => by rwa [hsplit]
    have hi : i ∈ completed := hcomp i (by simp)
    rw [horder] at hsplit
    have hlast : (earlier.getLast?.elim 0 fun j => (proc j).finishTime) =
        W.jobSet.doneAt 0 earlier := by
      rcases List.eq_nil_or_concat earlier with rfl | ⟨earlier, j, rfl⟩
      · rfl
      · have hj : j ∈ completed := hcomp j (by simp)
        rw [List.concat_eq_append, List.append_assoc] at hsplit
        rw [List.concat_eq_append, List.getLast?_concat]
        exact fifo_finishTime hsplit hj
    rw [hlast]
    exact fifo_finishTime_eq hsplit hi

end OsSimulator.Analysis
