import OsSimulator.Analysis.SjfOptimal
import OsSimulator.Analysis.RoundRobinFifo

/-!
# STCF and SJF coincide when all processes arrive together

Before the common arrival both schedulers idle.  From then on the ready queue of SJF is sorted by
burst (`sjf_sorted_run`), its processes have not been executed, and none is shorter than the
running one (`WaitsBehind`).  Sorting by remaining time is then sorting by burst, a queue that is
sorted already stays as it is, ties included, and the strict test of STCF never preempts; so both
ticks do the same (`sameQueue_schedule`).
-/

set_option autoImplicit false

namespace OsSimulator.Analysis

open Model Interface Library

/-! ## Sorting -/

/-- The sort looks at the keys of the queue only. -/
theorem sortByKey_congr {key key' : ℕ → ℤ} {queue : List ℕ} (h : ∀ i ∈ queue, key i = key' i) :
    sortByKey key queue = sortByKey key' queue := by
  unfold sortByKey
  induction queue with
  | nil => rfl
  | cons i queue ih =>
    rw [List.forall_mem_cons] at h
    rw [List.insertionSort_cons, List.insertionSort_cons, ih h.2]
    have hmem : ∀ j ∈ queue.insertionSort fun i j => key' i ≤ key' j, key j = key' j :=
      fun j hj => h.2 j ((List.perm_insertionSort _ _).mem_iff.mp hj)
    generalize queue.insertionSort (fun i j => key' i ≤ key' j) = sorted at hmem
    induction sorted with
    | nil => rfl
    | cons j sorted ihs =>
      rw [List.forall_mem_cons] at hmem
      rw [List.orderedInsert, List.orderedInsert, h.1, hmem.1, ihs hmem.2]

theorem sortByKey_eq_self {key : ℕ → ℤ} {queue : List ℕ}
    (h : queue.Pairwise fun i j => key i ≤ key j) : sortByKey key queue = queue :=
  h.insertionSort_eq

theorem sortByKey_pairwise (key : ℕ → ℤ) (queue : List ℕ) :
    (sortByKey key queue).Pairwise fun i j => key i ≤ key j :=
  List.pairwise_insertionSort _ queue

/-- STCF changes nothing when its queue is sorted and nobody in it is shorter than the running
process. -/
theorem stcf_keeps {s : STCFScheduler} {b : ReadyBase} {t : ℤ} {r : ℕ}
    (harrive : s.toReadyBase.arrive t = b) (hrun : b.running = some r)
    (hsort : sortByKey (fun j => (b.proc j).remainingTime) b.readyQueue = b.readyQueue)
    (hle : ∀ j ∈ b.readyQueue, (b.proc r).remainingTime ≤ (b.proc j).remainingTime) :
    (s.schedule t).toReadyBase = b := by
  unfold STCFScheduler.schedule
  rw [harrive]
  dsimp only
  rw [hsort, hrun]
  dsimp only
  split
  · rfl
  · rename_i shortest rest hready
    have hmem : shortest ∈ b.readyQueue := by
      rw [hready]
      exact List.mem_cons_self
    rw [if_neg (not_lt.mpr (hle shortest hmem))]
    exact readyBase_eq rfl hready.symm

/-! ## The queue of SJF -/

/-- The bursts of the queue are in order. -/
def SortedByBurst (W : Workload) (queue : List ℕ) : Prop :=
  queue.Pairwise fun i j => (W.proc i).burstTime ≤ (W.proc j).burstTime

section Sjf

variable {W : Workload} {n : ℕ}

variable {s : SJFScheduler}

/-- SJF between two ticks, after the arrivals of the second. -/
theorem schedInv_sjf_arrived (hs : sjfAfter W n = .sjf s) :
    SchedInv W (sjfRan W) n (n + 1) (Kept (sjfRan W) n (n + 1))
      (baseView (s.toReadyBase.arrive n).toSchedBase (s.toReadyBase.arrive n).readyQueue) := by
  have hpre : SchedInv W (sjfRan W) n n (Slot (sjfRan W) n n) (schedView (sjfAfter W n)) :=
    (schedInv_run .sjf W n).1
  rw [hs] at hpre
  exact hpre.arrived (ReadyBase.arrived n s.toReadyBase)

theorem burst_arrived (hs : sjfAfter W n = .sjf s) {i : ℕ}
    (hi : i ∈ (s.toReadyBase.arrive n).readyQueue) :
    ((s.toReadyBase.arrive n).proc i).burstTime = (W.proc i).burstTime := by
  have hmid := schedInv_sjf_arrived hs
  exact (hmid.job i (hmid.inRange i (mem_places_of_ready hi))).burst_eq

theorem sjf_sorted_schedule (hs : sjfAfter W n = .sjf s) (hsorted : SortedByBurst W s.readyQueue)
    (harr : s.running ≠ none → arrivals n s.allProcesses = []) :
    SortedByBurst W (s.schedule n).readyQueue := by
  have hburst := fun i => burst_arrived hs (i := i)
  have hqueue : (s.toReadyBase.arrive n).readyQueue = s.readyQueue ++ arrivals n s.allProcesses :=
    rfl
  have hslot : (s.toReadyBase.arrive n).running = s.running := rfl
  unfold SJFScheduler.schedule
  generalize s.toReadyBase.arrive n = a at hburst hqueue hslot ⊢
  cases hrun : s.running with
  | some r =>
    rw [hrun] at hslot
    rw [harr (by simp [hrun]), List.append_nil] at hqueue
    simp only [hslot, hqueue]
    exact hsorted
  | none =>
    rw [hrun] at hslot
    simp only [hslot]
    have hpair := sortByKey_pairwise (fun i => (a.proc i).burstTime) a.readyQueue
    have hperm := perm_sortByKey (fun i => (a.proc i).burstTime) a.readyQueue
    split
    · rename_i hnil
      rw [eq_nil_of_sortByKey hnil]
      exact List.Pairwise.nil
    · rename_i i rest hcons
      rw [hcons] at hpair hperm
      have hmem : ∀ j ∈ rest, j ∈ a.readyQueue := fun j hj =>
        hperm.mem_iff.mp (List.mem_cons_of_mem i hj)
      refine (List.pairwise_cons.mp hpair).2.imp_of_mem fun {j k} hj hk hle => ?_
      rw [← hburst j (hmem j hj), ← hburst k (hmem k hk)]
      exact hle

/-- A ready process has not been executed, so its remaining time is its burst. -/
theorem sjf_arrived_unserved (hs : sjfAfter W n = .sjf s)
    (hwaits : WaitsBehind W (sjfRan W) n (.sjf s)) {j : ℕ}
    (hj : j ∈ (s.toReadyBase.arrive n).readyQueue) :
    ((s.toReadyBase.arrive n).proc j).remainingTime =
      ((s.toReadyBase.arrive n).proc j).burstTime := by
  have hpre : SchedInv W (sjfRan W) n n (Slot (sjfRan W) n n) (schedView (sjfAfter W n)) :=
    (schedInv_run .sjf W n).1
  rw [hs] at hpre
  have hticks : ticksOf (sjfRan W) j n = [] := by
    rcases List.mem_append.mp hj with hj | hj
    · exact hwaits.unserved j hj
    · obtain ⟨hlt, hout, -, -⟩ := hpre.placed.mem_newcomers hj
      exact (hpre.pending j hlt hout).ticks_eq
  have hwork : ((s.toReadyBase.arrive n).proc j).burstTime -
      ((s.toReadyBase.arrive n).proc j).remainingTime = (ticksOf (sjfRan W) j n).length :=
    ((schedInv_sjf_arrived hs).ready j hj).2.1.work_eq
  rw [hticks, List.length_nil, Nat.cast_zero] at hwork
  omega

variable {a : ℤ} (htogether : ∀ p ∈ W.procs, p.arrivalTime = a)
include htogether

theorem sjf_sorted_run (n : ℕ) : SortedByBurst W (sjfAfter W n).ready := by
  induction n with
  | zero =>
    have hempty : (sjfAfter W 0).ready = [] := (load_spec .sjf W.procs).2.1
    rw [hempty]
    exact List.Pairwise.nil
  | succ n ih =>
    have harr := arrivals_eq_nil htogether (n := n)
    obtain ⟨s, hs⟩ := sjf_run W n
    show SortedByBurst W ((sjfAfter W n).tick n).ready
    rw [hs] at ih harr ⊢
    exact sjf_sorted_schedule hs ih harr

/-! ## Lockstep -/

/-- **The two disciplines choose alike.** -/
theorem sameQueue_schedule {f : SJFScheduler} (hf : sjfAfter W n = .sjf f) {s : STCFScheduler}
    (hsame : s.toReadyBase = f.toReadyBase) :
    (s.schedule n).toReadyBase = (f.schedule n).toReadyBase := by
  have hmid := schedInv_sjf_arrived hf
  have hsorted := sjf_sorted_run htogether n
  have hwaits := waitsBehind_run htogether n
  have harr := arrivals_eq_nil htogether (n := n)
  rw [hf] at hsorted hwaits harr
  have hkey := fun j => sjf_arrived_unserved hf hwaits (j := j)
  have hburst := fun i => burst_arrived hf (i := i)
  have hqueue : (f.toReadyBase.arrive n).readyQueue = f.readyQueue ++ arrivals n f.allProcesses :=
    rfl
  have harrive : s.toReadyBase.arrive n = f.toReadyBase.arrive n := by rw [hsame]
  have hslot : (f.toReadyBase.arrive n).running = f.running := rfl
  unfold SJFScheduler.schedule
  generalize f.toReadyBase.arrive n = b at hmid hkey hburst hqueue harrive hslot ⊢
  have hsort : sortByKey (fun j => (b.proc j).remainingTime) b.readyQueue = _ :=
    sortByKey_congr hkey
  cases hrun : f.running with
  | none =>
    rw [hrun] at hslot
    unfold STCFScheduler.schedule
    dsimp only
    rw [harrive, hsort, hslot]
    dsimp only
    split <;> rfl
  | some r =>
    rw [hrun] at hslot
    have hnone : arrivals n f.allProcesses = [] := harr (by simp [Scheduler.base, hrun])
    rw [hnone, List.append_nil] at hqueue
    have hself : sortByKey (fun i => (b.proc i).burstTime) b.readyQueue = b.readyQueue := by
      refine sortByKey_eq_self ?_
      rw [hqueue] at hburst ⊢
      refine hsorted.imp_of_mem fun {j k} hj hk hle => ?_
      rw [hburst j hj, hburst k hk]
      exact hle
    have hleft : (b.proc r).remainingTime ≤ (W.proc r).burstTime := by
      have hwork : (b.proc r).burstTime - (b.proc r).remainingTime =
        (ticksOf (sjfRan W) r n).length := (hmid.running r hslot).2.1.work_eq
      have hjob : (b.proc r).burstTime = (W.proc r).burstTime :=
        (hmid.job r (hmid.inRange r (mem_places_of_running hslot))).burst_eq
      omega
    rw [stcf_keeps harrive hslot (hsort.trans hself) ?_]
    · dsimp only
      rw [hslot]
    · intro j hj
      have hj' : j ∈ f.readyQueue := hqueue ▸ hj
      have hle := hwaits.shortest r hrun j hj'
      rw [hkey j hj, hburst j hj]
      exact le_trans hleft hle

/-- **The two runs stay in lockstep.** -/
theorem stcf_sjf_lockstep (n : ℕ) :
    ∃ s f, (SchedulerKind.stcf.load W.procs).run n = .stcf s ∧ sjfAfter W n = .sjf f ∧
      s.toReadyBase = f.toReadyBase := by
  induction n with
  | zero =>
    obtain ⟨s, hs⟩ := run_discipline (C := .stcf) (k := .stcf) ⟨_, rfl⟩ (fun _ _ => ⟨_, rfl⟩)
      (fun _ _ => ⟨_, rfl⟩) W.procs 0
    obtain ⟨f, hf⟩ := sjf_run W 0
    refine ⟨s, f, hs, hf, ?_⟩
    obtain ⟨hbase, hready, -⟩ := load_spec .stcf W.procs
    obtain ⟨hbase', hready', -⟩ := load_spec .sjf W.procs
    have hload : SchedulerKind.stcf.load W.procs = .stcf s := hs
    have hload' : SchedulerKind.sjf.load W.procs = .sjf f := hf
    rw [hload] at hbase hready
    rw [hload'] at hbase' hready'
    exact readyBase_eq (hbase.trans hbase'.symm) (hready.trans hready'.symm)
  | succ n ih =>
    obtain ⟨s, f, hs, hf, hsame⟩ := ih
    have hmid := sameQueue_schedule htogether hf hsame
    refine ⟨s.tick n, f.tick n, ?_, ?_, ?_⟩
    · rw [Scheduler.run, hs]
      rfl
    · show (sjfAfter W n).tick n = _
      rw [hf]
      rfl
    · show ({ (s.schedule n).toReadyBase with
        toSchedBase := (s.schedule n).toSchedBase.execute Process.name n } : ReadyBase) =
          { (f.schedule n).toReadyBase with
            toSchedBase := (f.schedule n).toSchedBase.execute Process.name n }
      rw [hmid]

end Sjf

/-! ## The two runs -/

/-- **STCF and SJF coincide when nobody arrives late.**  When all processes arrive at one tick,
the two schedulers agree after every tick on the Gantt chart, the completed processes, the number
of context switches and the recorded times of every process.
SOURCE: pkg/cpu/sched_sjf.go:38-95, pkg/cpu/sched_sjf.go:139-205 -/
theorem stcf_eq_sjf (procs : List Process) (a : ℤ) (ha : 0 ≤ a)
    (harrival : ∀ p ∈ procs, p.arrivalTime = a) (hburst : ∀ p ∈ procs, 1 ≤ p.burstTime) (n : ℕ) :
    let stcf := ((SchedulerKind.stcf.load procs).run n).base
    let sjf := ((SchedulerKind.sjf.load procs).run n).base
    stcf.gantt = sjf.gantt ∧ stcf.completed = sjf.completed ∧
      stcf.contextSwitches = sjf.contextSwitches ∧
      ∀ i < procs.length,
        (stcf.proc i).startTime = (sjf.proc i).startTime ∧
        (stcf.proc i).finishTime = (sjf.proc i).finishTime ∧
        (stcf.proc i).waitingTime = (sjf.proc i).waitingTime ∧
        (stcf.proc i).turnaround = (sjf.proc i).turnaround ∧
        (stcf.proc i).responseTime = (sjf.proc i).responseTime := by
  intro stcf sjf
  let W := Workload.ofClones procs (fun p hp => by rw [harrival p hp]; exact ha) hburst
  have htogether : ∀ p ∈ W.procs, p.arrivalTime = a := by
    intro p hp
    obtain ⟨q, hq, rfl⟩ := List.mem_map.mp hp
    exact harrival q hq
  obtain ⟨s, f, hs, hf, hsame⟩ := stcf_sjf_lockstep htogether n
  have hbase : stcf = sjf := by
    show ((SchedulerKind.stcf.load procs).run n).base = ((SchedulerKind.sjf.load procs).run n).base
    rw [← load_map_clone .stcf procs, ← load_map_clone .sjf procs]
    have hs' : (SchedulerKind.stcf.load (procs.map Process.clone)).run n = .stcf s := hs
    have hf' : (SchedulerKind.sjf.load (procs.map Process.clone)).run n = .sjf f := hf
    rw [hs', hf']
    exact congrArg ReadyBase.toSchedBase hsame
  rw [hbase]
  exact ⟨rfl, rfl, rfl, fun i _ => ⟨rfl, rfl, rfl, rfl, rfl⟩⟩

/-- Two processes of the same burst and a shorter one, all at tick `2`. -/
theorem stcf_eq_sjf_ties :
    let procs := [newProcess 1 "P1" 2 2, newProcess 2 "P2" 2 2, newProcess 3 "P3" 2 1]
    let stcf := ((SchedulerKind.stcf.load procs).run 7).base
    let sjf := ((SchedulerKind.sjf.load procs).run 7).base
    sjf.completed = [2, 0, 1] ∧ sjf.contextSwitches = 3 ∧ stcf.gantt = sjf.gantt ∧
      stcf.completed = sjf.completed := by
  intro procs stcf sjf
  obtain ⟨hgantt, hcompleted, -⟩ := stcf_eq_sjf procs 2 (by decide) (by decide) (by decide) 7
  exact ⟨by decide, by decide, hgantt, hcompleted⟩

end OsSimulator.Analysis
