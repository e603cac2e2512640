import OsSimulator.Analysis.SchedInvariant

/-!
# Where every process is, and what its timing fields say

The consequences of `schedInv_run` for the scheduler's own fields.  After the ticks
`0, ..., t` of any of the six schedulers:

* every process is in exactly one place exactly once (`every_process_in_one_place`),
* start, finish, turnaround and response time agree with the ticks of the Gantt chart
  that were given to the process (`timings_agree_with_gantt`),
* the waiting time of a completed process is one more than its turnaround leaves
  besides its burst (`waitingTime_exceeds_by_one`), because the tick of its dispatch
  is counted as a tick of waiting.
-/

set_option autoImplicit false

namespace OsSimulator.Analysis

open Model Interface

/-! ## One place -/

/-- Process `i` is at exactly one place, exactly once, after tick `t`. -/
def InOnePlace (s : Scheduler) (t : ℕ) (i : ℕ) : Prop :=
  let p := s.base.proc i
  (p.state = .new ∧ t < p.arrivalTime ∧
    s.ready.count i = 0 ∧ s.base.running ≠ some i ∧ s.base.completed.count i = 0) ∨
  (p.state = .ready ∧
    s.ready.count i = 1 ∧ s.base.running ≠ some i ∧ s.base.completed.count i = 0) ∨
  (p.state = .running ∧
    s.ready.count i = 0 ∧ s.base.running = some i ∧ s.base.completed.count i = 0) ∨
  (p.state = .terminated ∧ p.remainingTime = 0 ∧
    s.ready.count i = 0 ∧ s.base.running ≠ some i ∧ s.base.completed.count i = 1)

theorem SchedInv.inOnePlace {W : Workload} {h : ℕ → Option ℕ} {t : ℕ} {R : ℕ → Process → Prop}
    {s : Scheduler} (hv : SchedInv W h (t + 1) (t + 1) R (schedView s)) {i : ℕ}
    (hi : i < W.procs.length) : InOnePlace s t i := by
  have hnd := hv.nodup
  have hready : (schedView s).ready.Nodup := (List.nodup_append.mp (List.nodup_append.mp hnd).1).1
  have hcomp : (schedView s).completed.Nodup := (List.nodup_append.mp hnd).2.1
  have hcount0 : ∀ l : List ℕ, i ∉ l → l.count i = 0 := fun l => List.count_eq_zero_of_not_mem
  have hcount1 : ∀ l : List ℕ, l.Nodup → i ∈ l → l.count i = 1 := fun l hl hm =>
    List.count_eq_one_of_mem hl hm
  by_cases hout : i ∈ places (schedView s)
  · rcases mem_places.mp hout with hr | hr | hr
    · exact .inr (.inl ⟨(hv.ready i hr).1, hcount1 _ hready hr,
        fun hrun => not_ready_of_running hnd hrun hr,
        hcount0 _ (not_completed_of_ready hnd hr)⟩)
    · exact .inr (.inr (.inl ⟨(hv.running i hr).1, hcount0 _ (not_ready_of_running hnd hr), hr,
        hcount0 _ (not_completed_of_running hnd hr)⟩))
    · exact .inr (.inr (.inr ⟨(hv.completed i hr).state_eq, (hv.completed i hr).remaining_eq,
        hcount0 _ (fun hr' => not_completed_of_ready hnd hr' hr),
        fun hrun => not_completed_of_running hnd hrun hr, hcount1 _ hcomp hr⟩))
  · have hp := hv.pending i (hv.lt_size hi) hout
    have hlater : (t : ℤ) + 1 ≤ (s.base.proc i).arrivalTime := hp.later
    exact .inl ⟨hp.state_eq, by omega, hcount0 _ (fun hr => hout (mem_places_of_ready hr)),
      fun hr => hout (mem_places_of_running hr),
      hcount0 _ (fun hr => hout (mem_places_of_completed hr))⟩

theorem le_length_of_all_mem {l : List ℕ} {m : ℕ} (hall : ∀ i < m, i ∈ l) : m ≤ l.length := by
  have hsub : List.range m ⊆ l := fun i hi => hall i (List.mem_range.mp hi)
  simpa using (List.subperm_of_subset List.nodup_range hsub).length_le

/-- The completed processes are all processes exactly when there are as many. -/
theorem allDone_iff {W : Workload} {h : ℕ → Option ℕ} {n : ℕ} {now : ℤ} {R : ℕ → Process → Prop}
    {s : Scheduler} (hv : SchedInv W h n now R (schedView s)) :
    s.base.allDone = true ↔
      W.procs ≠ [] ∧ ∀ i < W.procs.length, i ∈ s.base.completed := by
  have hsize : s.base.allProcesses.length = W.procs.length := hv.size_eq
  have hcomp : s.base.completed.Nodup := (List.nodup_append.mp hv.nodup).2.1
  have hsub : s.base.completed ⊆ List.range W.procs.length := fun i hi =>
    List.mem_range.mpr (hv.lt_length (mem_places_of_completed hi))
  have hle : s.base.completed.length ≤ W.procs.length := by
    simpa using (List.subperm_of_subset hcomp hsub).length_le
  simp only [SchedBase.allDone, Bool.and_eq_true, beq_iff_eq, decide_eq_true_eq, hsize,
    List.length_pos_iff]
  constructor
  · rintro ⟨hlen, hne⟩
    refine ⟨hne, fun i hi => ?_⟩
    have hperm : s.base.completed.Perm (List.range W.procs.length) :=
      (List.subperm_of_subset hcomp hsub).perm_of_length_le (by simp [hlen])
    exact hperm.mem_iff.mpr (List.mem_range.mpr hi)
  · rintro ⟨hne, hall⟩
    exact ⟨le_antisymm hle (le_length_of_all_mem hall), hne⟩

/-- **No process is lost or duplicated.**  After the ticks `0, ..., t` of any scheduler
every process of the workload is in exactly one place exactly once, and `Tick` reports
completion exactly when the workload is non-empty and completed. -/
theorem every_process_in_one_place (k : SchedulerKind) (W : Workload) (t : ℕ) :
    let s := (k.load W.procs).run (t + 1)
    s.base.allProcesses.length = W.procs.length ∧
      (∀ i < W.procs.length, SameJob (W.proc i) (s.base.proc i) ∧ InOnePlace s t i) ∧
      (∀ i ∈ s.ready ++ s.base.running.toList ++ s.base.completed, i < W.procs.length) ∧
      ((((k.load W.procs).run t).tickResult t).2 = true ↔
        W.procs ≠ [] ∧ ∀ i < W.procs.length, i ∈ s.base.completed) := by
  intro s
  obtain ⟨hv, -⟩ := schedInv_run k W (t + 1)
  exact ⟨hv.size_eq, fun i hi => ⟨job_run k W (t + 1) hi, hv.inOnePlace hi⟩,
    fun i hi => hv.lt_length hi, allDone_iff hv⟩

/-! ## The Gantt chart -/

/-- The Gantt label of a process; MLFQ adds the level. -/
def ganttLabel : Scheduler → Process → String
  | .mlfq _ => MLFQScheduler.label
  | _ => Process.name

/-- The segment of tick `t` for the process in the running slot. -/
def ganttSegment (label : Process → String) (t : ℤ) (b : SchedBase) : GanttSegment :=
  match b.running with
  | some i => ⟨label (b.proc i), t, t + 1⟩
  | none => ⟨"IDLE", t, t + 1⟩

theorem execute_gantt (label : Process → String) (t : ℤ) (b : SchedBase) :
    (b.execute label t).gantt = b.gantt ++ [ganttSegment label t b] := by
  unfold SchedBase.execute ganttSegment
  cases b.running with
  | none => rfl
  | some i =>
    dsimp only
    split <;> rfl

theorem execute_busyTime (label : Process → String) (t : ℤ) (b : SchedBase) :
    (b.execute label t).busyTime = b.busyTime + if b.running.isSome then 1 else 0 := by
  unfold SchedBase.execute
  cases b.running with
  | none => simp
  | some i =>
    dsimp only
    split <;> simp

theorem slice_expire_gantt_busyTime (a : SliceBase) :
    a.expire.gantt = a.gantt ∧ a.expire.busyTime = a.busyTime := by
  unfold SliceBase.expire
  split
  · split <;> exact ⟨rfl, rfl⟩
  · exact ⟨rfl, rfl⟩

theorem mlfq_boost_gantt_busyTime (t : ℤ) (a : MLFQScheduler) :
    (a.boost t).gantt = a.gantt ∧ (a.boost t).busyTime = a.busyTime := by
  simp only [MLFQScheduler.boost]
  split <;> exact ⟨rfl, rfl⟩

theorem mlfq_expire_gantt_busyTime (a : MLFQScheduler) :
    a.expire.gantt = a.gantt ∧ a.expire.busyTime = a.busyTime := by
  unfold MLFQScheduler.expire
  split
  · dsimp only
    split
    · exact ⟨rfl, rfl⟩
    · split <;> exact ⟨rfl, rfl⟩
  · exact ⟨rfl, rfl⟩

theorem mlfq_pick_gantt_busyTime (t : ℤ) (a : MLFQScheduler) :
    (a.pick t).gantt = a.gantt ∧ (a.pick t).busyTime = a.busyTime := by
  unfold MLFQScheduler.pick
  split
  · exact ⟨rfl, rfl⟩
  · split <;> exact ⟨rfl, rfl⟩

/-- Scheduling writes neither the chart nor the busy time. -/
theorem schedule_gantt_busyTime (t : ℤ) (s : Scheduler) :
    (s.schedule t).base.gantt = s.base.gantt ∧ (s.schedule t).base.busyTime = s.base.busyTime := by
  cases s with
  | fifo s =>
    simp only [Scheduler.schedule, Scheduler.base, FIFOScheduler.schedule]
    split <;> exact ⟨rfl, rfl⟩
  | sjf s =>
    simp only [Scheduler.schedule, Scheduler.base, SJFScheduler.schedule]
    split
    · exact ⟨rfl, rfl⟩
    · split <;> exact ⟨rfl, rfl⟩
  | stcf s =>
    simp only [Scheduler.schedule, Scheduler.base, STCFScheduler.schedule]
    split
    · exact ⟨rfl, rfl⟩
    · split
      · exact ⟨rfl, rfl⟩
      · split <;> exact ⟨rfl, rfl⟩
  | rr s =>
    simp only [Scheduler.schedule, Scheduler.base, RRScheduler.schedule]
    have hexpire := slice_expire_gantt_busyTime
      { s.toSliceBase with toReadyBase := s.toReadyBase.arrive t }
    split <;> exact hexpire
  | lottery s =>
    simp only [Scheduler.schedule, Scheduler.base, LotteryScheduler.schedule,
      LotteryScheduler.draw]
    have hexpire := slice_expire_gantt_busyTime
      { s.toSliceBase with toReadyBase := s.toReadyBase.arrive t }
    split <;> exact hexpire
  | mlfq s =>
    simp only [Scheduler.schedule, Scheduler.base, MLFQScheduler.schedule]
    rw [(mlfq_pick_gantt_busyTime t _).1, (mlfq_pick_gantt_busyTime t _).2,
      (mlfq_expire_gantt_busyTime _).1, (mlfq_expire_gantt_busyTime _).2]
    exact mlfq_boost_gantt_busyTime t s

/-- One tick appends the segment of the process it executes. -/
theorem tick_gantt (t : ℤ) (s : Scheduler) :
    (s.tick t).base.gantt =
      s.base.gantt ++ [ganttSegment (ganttLabel s) t (s.schedule t).base] := by
  rw [← (schedule_gantt_busyTime t s).1]
  cases s with
  | mlfq s =>
    show (s.tick t).gantt =
      (s.schedule t).gantt ++ [ganttSegment MLFQScheduler.label t (s.schedule t).toSchedBase]
    unfold MLFQScheduler.tick
    generalize s.schedule t = a
    dsimp only
    cases hrun : a.running with
    | none => exact execute_gantt _ t _
    | some j =>
      dsimp only
      rw [execute_gantt]
      unfold ganttSegment SchedBase.proc
      simp only [hrun, List.getD_eq_getElem?_getD, List.getElem?_modify]
      -- the allotment does not appear in the label
      cases a.allProcesses[j]? <;> rfl
  | _ => exact execute_gantt _ t _

theorem tick_busyTime (t : ℤ) (s : Scheduler) :
    (s.tick t).base.busyTime =
      s.base.busyTime + if (s.schedule t).base.running.isSome then 1 else 0 := by
  rw [← (schedule_gantt_busyTime t s).2]
  cases s with
  | mlfq s =>
    show (s.tick t).busyTime =
      (s.schedule t).busyTime + if (s.schedule t).running.isSome then 1 else 0
    unfold MLFQScheduler.tick
    generalize s.schedule t = a
    dsimp only
    cases hrun : a.running with
    | none => rw [execute_busyTime, hrun]
    | some j =>
      dsimp only
      rw [execute_busyTime]
  | _ => exact execute_busyTime _ t _

theorem ganttLabel_run (k : SchedulerKind) (procs : List Process) (n : ℕ) :
    ganttLabel ((k.load procs).run n) = ganttLabel k.new := by
  apply run_induction (P := fun s => ganttLabel s = ganttLabel k.new)
  · rfl
  · intro p s hs
    rw [← hs]
    cases s <;> rfl
  · intro t s hs
    rw [← hs]
    cases s <;> rfl

/-- The chart after `n` ticks has one segment a tick, labelled by the process that the
tick executed or as idle. -/
theorem run_gantt (k : SchedulerKind) (procs : List Process) (n : ℕ) :
    ((k.load procs).run n).base.gantt = (List.range n).map fun t : ℕ =>
      ganttSegment (ganttLabel k.new) t (((k.load procs).run t).schedule t).base := by
  induction n with
  | zero =>
    show (k.load procs).base.gantt = []
    rw [(load_spec k procs).1]
  | succ n ih =>
    show (((k.load procs).run n).tick n).base.gantt = _
    rw [tick_gantt, ih, List.range_succ, List.map_append, ganttLabel_run]
    rfl

/-- The label that a scheduler gives to a process of that name. -/
def LabelOf (k : SchedulerKind) (name label : String) : Prop :=
  match k with
  | .mlfq _ => ∃ level : ℕ, label = name ++ "(Q" ++ toString level ++ ")"
  | _ => label = name

theorem labelOf_ganttLabel (k : SchedulerKind) (p : Process) :
    LabelOf k p.name (ganttLabel k.new p) := by
  cases k with
  | mlfq b => exact ⟨p.currentQueue, rfl⟩
  | _ => rfl

/-- Every tick has its segment, labelled by the process it executed. -/
theorem gantt_segment_run (k : SchedulerKind) (W : Workload) {n t : ℕ} (ht : t < n) :
    ∃ seg, ((k.load W.procs).run n).base.gantt[t]? = some seg ∧ seg.startTime = t ∧
      seg.endTime = t + 1 ∧
      (∀ i, (k.load W.procs).executedAt t = some i →
        i < W.procs.length ∧ LabelOf k (W.proc i).name seg.entityID) ∧
      ((k.load W.procs).executedAt t = none → seg.entityID = "IDLE") := by
  rw [run_gantt]
  have hmid := (schedInv_run k W t).1.schedule (schedInv_run k W t).2
  refine ⟨ganttSegment (ganttLabel k.new) t (((k.load W.procs).run t).schedule t).base,
    by simp [ht], ?_⟩
  unfold Scheduler.executedAt ganttSegment
  generalize ((k.load W.procs).run t).schedule t = a at hmid ⊢
  cases hrun : a.base.running with
  | none => simp
  | some i =>
    refine ⟨rfl, rfl, ?_, by simp⟩
    intro j hj
    obtain rfl : i = j := by simpa using hj
    have hi : i ∈ places (schedView a) := mem_places_of_running hrun
    have hname : (a.base.proc i).name = (W.proc i).name :=
      (hmid.job i (hmid.inRange i hi)).name_eq
    refine ⟨hmid.lt_length hi, ?_⟩
    rw [← hname]
    exact labelOf_ganttLabel k _

/-! ## The recorded timings -/

/-- What the invariant says about the start time, as a function of the executed ticks. -/
theorem StartOk.startTime_eq {h : ℕ → Option ℕ} {n i : ℕ} {p : Process} (hp : StartOk h n i p) :
    (ticksOf h i n = [] → p.startTime = -1) ∧
      ∀ u, (ticksOf h i n).head? = some u → p.startTime = u := by
  rcases hp with ⟨hnil, hstart⟩ | ⟨u, hu, hstart, -⟩
  · refine ⟨fun _ => hstart, fun u hu => ?_⟩
    rw [hnil] at hu
    cases hu
  · refine ⟨fun hnil => ?_, fun u' hu' => ?_⟩
    · rw [hnil] at hu
      cases hu
    · obtain rfl : u = u' := Option.some.inj (hu.symm.trans hu')
      exact hstart

/-- **The timings agree with what was executed.**  After the ticks `0, ..., t` of any
scheduler the chart has one segment a tick, and the fields of every process say what
the ticks given to it say. -/
theorem timings_agree_with_gantt (k : SchedulerKind) (W : Workload) (t : ℕ) :
    let s := (k.load W.procs).run (t + 1)
    let ran := (k.load W.procs).executedAt
    s.base.gantt.length = t + 1 ∧
      (∀ u ≤ t, ∃ seg, s.base.gantt[u]? = some seg ∧ seg.startTime = u ∧ seg.endTime = u + 1 ∧
        (∀ i, ran u = some i → i < W.procs.length ∧ LabelOf k (W.proc i).name seg.entityID) ∧
        (ran u = none → seg.entityID = "IDLE")) ∧
      ∀ i < W.procs.length,
        let p := s.base.proc i
        let ticks := ticksOf ran i (t + 1)
        p.burstTime - p.remainingTime = ticks.length ∧
          (∀ u ∈ ticks, p.arrivalTime ≤ (u : ℤ)) ∧
          (ticks = [] → p.startTime = -1) ∧
          (∀ u, ticks.head? = some u → p.startTime = u) ∧
          (i ∈ s.base.completed →
            ticks.length = p.burstTime ∧
              (∃ u, ticks.getLast? = some u ∧ p.finishTime = u + 1) ∧
              p.turnaround = p.finishTime - p.arrivalTime ∧
              p.responseTime = p.startTime - p.arrivalTime ∧ 0 ≤ p.responseTime) := by
  intro s ran
  obtain ⟨hv, -⟩ := schedInv_run k W (t + 1)
  refine ⟨?_, fun u hu => gantt_segment_run k W (by omega), ?_⟩
  · show ((k.load W.procs).run (t + 1)).base.gantt.length = t + 1
    rw [run_gantt]
    simp
  · intro i hi p ticks
    by_cases hout : i ∈ places (schedView s)
    · rcases mem_places.mp hout with hr | hr | hr
      · obtain ⟨-, hact, hst⟩ := hv.ready i hr
        exact ⟨hact.work_eq, hact.ticks_after, hst.startTime_eq.1, hst.startTime_eq.2,
          fun hc => absurd hc (not_completed_of_ready hv.nodup hr)⟩
      · obtain ⟨-, hact, hst, -⟩ := hv.running i hr
        exact ⟨hact.work_eq, hact.ticks_after, hst.startTime_eq.1, hst.startTime_eq.2,
          fun hc => absurd hc (not_completed_of_running hv.nodup hr)⟩
      · have hfin := hv.completed i hr
        obtain ⟨u, hu, hst, hresp⟩ := hfin.start_ok
        have hs := StartOk.startTime_eq (.inr hfin.start_ok)
        have hrem : p.remainingTime = 0 := hfin.remaining_eq
        have hwork : p.burstTime = ticks.length := hfin.work_eq
        have harr : p.arrivalTime ≤ (u : ℤ) := hfin.ticks_after u (List.mem_of_mem_head? hu)
        have hst' : p.startTime = u := hst
        have hresp' : p.responseTime = u - p.arrivalTime := hresp
        refine ⟨by omega, hfin.ticks_after, hs.1, hs.2, fun _ => ?_⟩
        exact ⟨hwork.symm, hfin.finish_eq, hfin.turnaround_eq, by omega, by omega⟩
    · have hp := hv.pending i (hv.lt_size hi) hout
      have hnil : ticks = [] := hp.ticks_eq
      have hrem : p.remainingTime = p.burstTime := hp.untouched
      refine ⟨by simp [hnil, hrem], by simp [hnil], fun _ => hp.unstarted, by simp [hnil], ?_⟩
      exact fun hc => absurd (mem_places_of_completed hc) hout

/-! ## Waiting times -/

/-- **The waiting time is one tick too long.**  For every scheduler and every workload,
whenever a process has completed, its waiting time exceeds `turnaround - burst` by
exactly one; so a run that reports completion never shows the right waiting times.
SOURCE: pkg/cpu/process.go:43, pkg/cpu/sched_fifo.go:48-51 -/
theorem waitingTime_exceeds_by_one (k : SchedulerKind) (W : Workload) (t : ℕ) :
    let s := (k.load W.procs).run (t + 1)
    (∀ i ∈ s.base.completed,
      (s.base.proc i).waitingTime = (s.base.proc i).turnaround - (s.base.proc i).burstTime + 1) ∧
      ((((k.load W.procs).run t).tickResult t).2 = true →
        ¬ ∀ i ∈ s.base.completed,
          (s.base.proc i).waitingTime =
            (s.base.proc i).turnaround - (s.base.proc i).burstTime) := by
  intro s
  obtain ⟨hv, -⟩ := schedInv_run k W (t + 1)
  have hwait : ∀ i ∈ s.base.completed,
      (s.base.proc i).waitingTime =
        (s.base.proc i).turnaround - (s.base.proc i).burstTime + 1 :=
    fun i hi => (hv.completed i hi).waiting_eq
  refine ⟨hwait, fun hdone hall => ?_⟩
  obtain ⟨hne, hcomp⟩ := (allDone_iff hv).mp hdone
  have hzero := hcomp 0 (List.length_pos_iff.mpr hne)
  have hmore := hwait 0 hzero
  have hequal := hall 0 hzero
  omega

/-- One process that arrives at once and needs one tick. -/
def singleJob : Workload where
  procs := [newProcess 1 "P1" 0 1]
  fresh := by simp [Process.clone, newProcess]
  arrival_nonneg := by simp [newProcess]
  burst_pos := by simp [newProcess]

/-- It completes after the first tick with turnaround and burst one, but with a waiting
time of one. -/
theorem waitingTime_singleJob :
    (((SchedulerKind.fifo.load singleJob.procs).run 0).tickResult 0).2 = true ∧
      ¬ ∀ i ∈ ((SchedulerKind.fifo.load singleJob.procs).run 1).base.completed,
        (((SchedulerKind.fifo.load singleJob.procs).run 1).base.proc i).waitingTime =
          (((SchedulerKind.fifo.load singleJob.procs).run 1).base.proc i).turnaround -
            (((SchedulerKind.fifo.load singleJob.procs).run 1).base.proc i).burstTime := by
  decide

end OsSimulator.Analysis
