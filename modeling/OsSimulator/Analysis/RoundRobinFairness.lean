import OsSimulator.Interface.LineView
import OsSimulator.Analysis.WorkConservation

/-!
# Round robin is fair and responsive

The run of the round-robin scheduler on a workload, read as a line (`lineOf`), makes one `turn`
and one `serve` with every tick (`line_schedule`, `line_tick`).  From the two relations of
`Library.RoundRobin` on the line follow:

* two processes that arrive together are served equally up to one quantum, and the one that was
  added first is never behind (`rr_fair`),
* every process is dispatched for the first time after at most one quantum for each other
  process (`rr_response`).
-/

set_option autoImplicit false

namespace OsSimulator.Analysis

open Model Interface Library

/-! ## The line of a run -/

/-- The line of a scheduler; only that of round robin has a slice. -/
def lineOf : Scheduler → Line ℕ
  | .rr s => lineView s.toSliceBase
  | s => ⟨s.ready, s.base.running, 0⟩

@[simp] theorem lineOf_waiting (s : Scheduler) : (lineOf s).waiting = s.ready := by
  cases s <;> rfl

@[simp] theorem lineOf_inService (s : Scheduler) : (lineOf s).inService = s.base.running := by
  cases s <;> rfl

/-- Round robin after `n` ticks. -/
abbrev rrAfter (Q : ℤ) (W : Workload) (n : ℕ) : Scheduler :=
  ((SchedulerKind.rr Q).load W.procs).run n

/-- The process that its tick `n` executes. -/
abbrev rrRan (Q : ℤ) (W : Workload) : ℕ → Option ℕ := ((SchedulerKind.rr Q).load W.procs).executedAt

theorem load_rr (Q : ℤ) (procs : List Process) :
    ∃ s : RRScheduler, (SchedulerKind.rr Q).load procs = .rr s ∧
      s.quantum = (newRRScheduler Q).quantum ∧ s.currentSlice = 0 := by
  refine List.foldlRecOn (motive := fun a : Scheduler => ∃ s : RRScheduler, a = .rr s ∧
    s.quantum = (newRRScheduler Q).quantum ∧ s.currentSlice = 0) procs _
    ⟨newRRScheduler Q, rfl, rfl, rfl⟩ ?_
  rintro _ ⟨s, rfl, hs⟩ p _
  exact ⟨_, rfl, hs⟩

theorem newRRScheduler_quantum {Q : ℤ} (hQ : 1 ≤ Q) : (newRRScheduler Q).quantum = Q := by
  show (if Q ≤ 0 then 2 else Q) = Q
  rw [if_neg (by omega)]

section Run

variable {Q : ℤ} (hQ : 1 ≤ Q) (W : Workload) (n : ℕ)
include hQ

theorem rr_run : ∃ s : RRScheduler, rrAfter Q W n = .rr s ∧ s.quantum = Q := by
  apply run_induction (P := fun a => ∃ s : RRScheduler, a = .rr s ∧ s.quantum = Q)
  · exact ⟨newRRScheduler Q, rfl, newRRScheduler_quantum hQ⟩
  · rintro p _ ⟨s, rfl, hs⟩
    exact ⟨_, rfl, hs⟩
  · rintro t _ ⟨s, rfl, hs⟩
    exact ⟨s.tick t, rfl, (schedule_quantum t s).trans hs⟩

theorem line_schedule : lineOf ((rrAfter Q W n).schedule n) =
    (lineOf (rrAfter Q W n)).turn Q (arrivingAt W n) := by
  have harrivals : arrivals n (rrAfter Q W n).base.allProcesses = arrivingAt W n :=
    (schedInv_run (.rr Q) W n).1.arrivals_eq
  obtain ⟨s, hs, hquantum⟩ := rr_run hQ W n
  rw [hs] at harrivals ⊢
  rw [← harrivals, ← hquantum]
  exact lineView_schedule n s

theorem line_tick : lineOf (rrAfter Q W (n + 1)) =
    (lineOf ((rrAfter Q W n).schedule n)).serve (rrAfter Q W (n + 1)).base.running.isNone := by
  show lineOf ((rrAfter Q W n).tick n) =
    (lineOf ((rrAfter Q W n).schedule n)).serve ((rrAfter Q W n).tick n).base.running.isNone
  obtain ⟨s, hs, -⟩ := rr_run hQ W n
  rw [hs]
  exact lineView_tick n s

theorem slice_lt {k : ℕ} (hk : rrRan Q W n = some k) :
    (lineOf ((rrAfter Q W n).schedule n)).slice < Q := by
  have hserved : (lineOf ((rrAfter Q W n).schedule n)).inService = some k := by
    rw [lineOf_inService]
    exact hk
  rw [line_schedule hQ] at hserved ⊢
  exact Line.turn_slice_lt hQ _ _ hserved

theorem line_paced : (lineOf (rrAfter Q W n)).Paced Q := by
  induction n with
  | zero =>
    have hzero : (lineOf (rrAfter Q W 0)).slice = 0 := by
      obtain ⟨s, hs, -, hslice⟩ := load_rr Q W.procs
      show (lineOf ((SchedulerKind.rr Q).load W.procs)).slice = 0
      rw [hs]
      exact hslice
    exact ⟨by omega, by omega⟩
  | succ n ih =>
    rw [line_tick hQ]
    apply Line.Paced.serve (by omega)
    · rw [line_schedule hQ]
      exact ih.turn (by omega) _
    · intro k hk
      rw [lineOf_inService] at hk
      exact slice_lt hQ W n hk

end Run

/-! ## Processes of a run -/

section Processes

variable (k : SchedulerKind) (W : Workload)

theorem length_ticksOf_succ (h : ℕ → Option ℕ) (i n : ℕ) :
    ((ticksOf h i (n + 1)).length : ℤ) =
      (ticksOf h i n).length + if h n = some i then 1 else 0 := by
  by_cases hn : h n = some i
  · rw [ticksOf_succ_self hn, if_pos hn, List.length_append, List.length_singleton]
    push_cast
    rfl
  · rw [ticksOf_succ_other hn, if_neg hn, Int.add_zero]

/-- A process is executed only after its arrival. -/
theorem ticksOf_eq_nil {i n : ℕ} (harr : (n : ℤ) ≤ (W.proc i).arrivalTime) :
    ticksOf (k.load W.procs).executedAt i n = [] := by
  rw [← List.length_eq_zero_iff, ticksOf_length]
  apply JobSet.served_eq_zero (feasible_run k W)
  show n ≤ (W.proc i).arrivalTime.toNat
  omega

/-- A completed process stays completed. -/
theorem completed_mono {i n : ℕ} (hi : i < W.procs.length)
    (hc : i ∈ ((k.load W.procs).run n).base.completed) :
    i ∈ ((k.load W.procs).run (n + 1)).base.completed := by
  rw [completed_iff_left k W _ hi] at hc ⊢
  have hmono := served_mono (h := (k.load W.procs).executedAt) (i := i) (Nat.le_add_right n 1)
  unfold JobSet.left at hc ⊢
  omega

/-- An executed process that does not complete keeps the slot. -/
theorem running_of_executed {i n : ℕ} (hran : (k.load W.procs).executedAt n = some i)
    (hc : i ∉ ((k.load W.procs).run (n + 1)).base.completed) :
    ((k.load W.procs).run (n + 1)).base.running = some i := by
  have hexe := executed_tick n _ (schedInv_scheduled k W n).placed.inRange
  cases hexe with
  | idle free _ => exact absurd (free.symm.trans hran) (by simp)
  | work j slot slot' _ _ _ _ =>
    obtain rfl : j = i := Option.some.inj (slot.symm.trans hran)
    exact slot'
  | finish j slot _ _ _ _ completed_eq =>
    obtain rfl : j = i := Option.some.inj (slot.symm.trans hran)
    refine absurd ?_ hc
    show j ∈ (schedView (((k.load W.procs).run n).tick n)).completed
    rw [completed_eq]
    simp

end Processes

section Line

variable (Q : ℤ) (W : Workload) (n : ℕ)

theorem waiting_ne_inService : ∀ l ∈ (lineOf ((rrAfter Q W n).schedule n)).waiting,
    (lineOf ((rrAfter Q W n).schedule n)).inService ≠ some l := by
  intro l hl
  rw [lineOf_waiting] at hl
  rw [lineOf_inService]
  exact executed_ne_of_ready (.rr Q) W hl

theorem gain_line (l : ℕ) : gain (lineOf ((rrAfter Q W n).schedule n)) l =
    if rrRan Q W n = some l then 1 else 0 := by
  rw [gain, lineOf_inService]
  rfl

variable {Q W n}

/-- A tick of service that does not complete the process is not its last. -/
theorem done_eq_false {l : ℕ} (hc : l ∉ (rrAfter Q W (n + 1)).base.completed)
    (hl : (lineOf ((rrAfter Q W n).schedule n)).inService = some l) :
    (rrAfter Q W (n + 1)).base.running.isNone = false := by
  rw [lineOf_inService] at hl
  have hrun : (rrAfter Q W (n + 1)).base.running = some l := running_of_executed (.rr Q) W hl hc
  rw [hrun]
  rfl

end Line

/-! ## Fairness -/

section Fairness

variable {W : Workload} {i j n : ℕ}

/-- The first of two processes that arrive together enters the queue before the second. -/
theorem sublist_arrivingAt (hij : i < j) (hj : j < W.procs.length)
    (hi : (W.proc i).arrivalTime = n) (hj' : (W.proc j).arrivalTime = n) :
    [i, j].Sublist (arrivingAt W n) := by
  have hrange : [i, j].Sublist (List.range W.procs.length) := by
    have hpair : ([i] ++ [j]).Sublist (List.range j ++ [j]) :=
      (List.singleton_sublist.mpr (List.mem_range.mpr hij)).append (List.Sublist.refl [j])
    rw [← List.range_succ] at hpair
    exact hpair.trans (List.range_sublist.mpr hj)
  have hfilter := hrange.filter fun i => decide ((W.proc i).arrivalTime = n)
  rw [List.filter_eq_self.mpr (by simp [hi, hj'])] at hfilter
  exact hfilter

variable {Q : ℤ} (hQ : 1 ≤ Q)
include hQ

/-- **The invariant of two processes** that arrived together and are unfinished. -/
theorem abreast_run (hij : i < j) (hj : j < W.procs.length)
    (htime : (W.proc i).arrivalTime = (W.proc j).arrivalTime) (n : ℕ)
    (harr : (W.proc i).arrivalTime < n) (hci : i ∉ (rrAfter Q W n).base.completed)
    (hcj : j ∉ (rrAfter Q W n).base.completed) :
    Abreast Q i j ((ticksOf (rrRan Q W) i n).length - (ticksOf (rrRan Q W) j n).length)
      (lineOf (rrAfter Q W n)) := by
  induction n with
  | zero =>
    have := W.arrival_nonneg _ (W.proc_mem (hij.trans hj))
    omega
  | succ n ih =>
    have hjoin : Abreast Q i j
        ((ticksOf (rrRan Q W) i n).length - (ticksOf (rrRan Q W) j n).length)
        ((lineOf (rrAfter Q W n)).join (arrivingAt W n)) := by
      by_cases hnow : (W.proc i).arrivalTime = n
      · have hnil : ∀ l, (W.proc l).arrivalTime = n → ticksOf (rrRan Q W) l n = [] := fun l hl =>
          ticksOf_eq_nil (.rr Q) W (le_of_eq hl.symm)
        rw [hnil i hnow, hnil j (htime ▸ hnow)]
        refine .waiting ?_ (by simp)
        exact (sublist_arrivingAt hij hj hnow (htime ▸ hnow)).trans
          (List.sublist_append_right _ _)
      · refine Abreast.join (ih (by omega) ?_ ?_) _
        · exact fun hc => hci (completed_mono (.rr Q) W (hij.trans hj) hc)
        · exact fun hc => hcj (completed_mono (.rr Q) W hj hc)
    have hturn := hjoin.turn (line_paced hQ W n)
    rw [← line_schedule hQ] at hturn
    have hserve := hturn.serve (waiting_ne_inService Q W n) (done_eq_false hci)
      (done_eq_false hcj)
    rw [gain_line, gain_line, ← line_tick hQ] at hserve
    rw [length_ticksOf_succ, length_ticksOf_succ]
    convert hserve using 1
    omega

end Fairness

/-- **Round robin is fair.**  Of two processes that arrive at the same time, the one that was
added first has executed at least as many ticks as the other, and at most a quantum more, as
long as both are unfinished.
SOURCE: pkg/cpu/sched_rr.go:44-111 -/
theorem rr_fair (Q : ℤ) (hQ : 1 ≤ Q) (W : Workload) (i j : ℕ) (hij : i < j)
    (hj : j < W.procs.length) (htime : (W.proc i).arrivalTime = (W.proc j).arrivalTime) (t : ℕ)
    (hci : i ∉ (((SchedulerKind.rr Q).load W.procs).run (t + 1)).base.completed)
    (hcj : j ∉ (((SchedulerKind.rr Q).load W.procs).run (t + 1)).base.completed) :
    let ran := ((SchedulerKind.rr Q).load W.procs).executedAt
    let ahead : ℤ := (ticksOf ran i (t + 1)).length - (ticksOf ran j (t + 1)).length
    0 ≤ ahead ∧ ahead ≤ Q := by
  intro ran ahead
  by_cases harr : (W.proc i).arrivalTime < (t + 1 : ℕ)
  · exact (abreast_run hQ hij hj htime (t + 1) harr hci hcj).bounds (by omega) (line_paced hQ W _)
  · have hi : ticksOf ran i (t + 1) = [] := ticksOf_eq_nil (.rr Q) W (not_lt.mp harr)
    have hj : ticksOf ran j (t + 1) = [] := ticksOf_eq_nil (.rr Q) W (htime ▸ not_lt.mp harr)
    have hahead : ahead = 0 := by simp [ahead, hi, hj]
    omega

/-- Two processes that arrive at once and need three ticks each. -/
def twoEqual : Workload where
  procs := [newProcess 1 "P1" 0 3, newProcess 2 "P2" 0 3]
  fresh := by simp [Process.clone, newProcess]
  arrival_nonneg := by simp [newProcess]
  burst_pos := by simp [newProcess]

/-- After two ticks of a quantum of two the first has executed both. -/
theorem rr_fair_twoEqual :
    let ran := ((SchedulerKind.rr 2).load twoEqual.procs).executedAt
    let ahead : ℤ := (ticksOf ran 0 2).length - (ticksOf ran 1 2).length
    ahead = 2 ∧ 0 ≤ ahead ∧ ahead ≤ 2 :=
  ⟨by decide, rr_fair 2 (by decide) twoEqual 0 1 (by decide) (by decide) rfl 1 (by decide)
    (by decide)⟩

/-! ## Response times -/

section Response

variable {Q : ℤ} {W : Workload} {i : ℕ}

/-- Every process is in the line once at most. -/
theorem length_line_le (Q : ℤ) (W : Workload) (n : ℕ) :
    ((lineOf (rrAfter Q W n)).join (arrivingAt W n)).waiting.length +
      ((lineOf (rrAfter Q W n)).join (arrivingAt W n)).inService.toList.length ≤
        W.procs.length := by
  obtain ⟨hv, -⟩ := schedInv_run (.rr Q) W n
  let customers := (rrAfter Q W n).ready ++ (rrAfter Q W n).base.running.toList
  have hnd : customers.Nodup := (List.nodup_append.mp hv.nodup).1
  have hplaces : ∀ l ∈ customers, l ∈ places (schedView (rrAfter Q W n)) := fun l hl =>
    List.mem_append_left _ hl
  have hall : (customers ++ arrivingAt W n).Nodup := by
    refine List.nodup_append.mpr ⟨hnd, List.nodup_range.filter _, ?_⟩
    rintro l hl _ hnew rfl
    have harr := hv.arrived_of_mem (hplaces l hl)
    simp only [arrivingAt, List.mem_filter, decide_eq_true_eq] at hnew
    omega
  have hsub : customers ++ arrivingAt W n ⊆ List.range W.procs.length := by
    intro l hl
    rcases List.mem_append.mp hl with hl | hl
    · exact List.mem_range.mpr (hv.lt_length (hplaces l hl))
    · exact (List.mem_filter.mp hl).1
  have hlen := (List.subperm_of_subset hall hsub).length_le
  simp only [customers, List.length_append, List.length_range] at hlen
  simp only [Line.join, lineOf_waiting, lineOf_inService, List.length_append]
  omega

variable (hQ : 1 ≤ Q) (hi : i < W.procs.length)
include hQ hi

/-- What is ahead of an unstarted process once the arrivals of tick `n` have joined. -/
theorem ahead_join {n : ℕ} (harr : (W.proc i).arrivalTime ≤ n)
    (hprev : (W.proc i).arrivalTime < n →
      Ahead Q i (Q * (W.procs.length - 1 : ℕ) - (n - (W.proc i).arrivalTime))
        (lineOf (rrAfter Q W n))) :
    Ahead Q i (Q * (W.procs.length - 1 : ℕ) - (n - (W.proc i).arrivalTime))
      ((lineOf (rrAfter Q W n)).join (arrivingAt W n)) := by
  by_cases hnow : (W.proc i).arrivalTime = n
  · have hmem : i ∈ ((lineOf (rrAfter Q W n)).join (arrivingAt W n)).waiting := by
      refine List.mem_append_right _ (List.mem_filter.mpr ⟨List.mem_range.mpr hi, ?_⟩)
      simpa using hnow
    have hslice : 0 ≤ ((lineOf (rrAfter Q W n)).join (arrivingAt W n)).slice :=
      (line_paced hQ W n).nonneg
    have hlen := length_line_le Q W n
    rw [hnow, Int.sub_self, Int.sub_zero]
    exact ahead_of_mem (by omega) hslice hmem (by omega)
  · exact (hprev (by omega)).join _

/-- **The invariant of a process** that has arrived and was not executed yet. -/
theorem ahead_run (n : ℕ) (harr : (W.proc i).arrivalTime < n)
    (hnil : ticksOf (rrRan Q W) i n = []) :
    Ahead Q i (Q * (W.procs.length - 1 : ℕ) - (n - (W.proc i).arrivalTime))
      (lineOf (rrAfter Q W n)) := by
  induction n with
  | zero =>
    have := W.arrival_nonneg _ (W.proc_mem hi)
    omega
  | succ n ih =>
    have hran : rrRan Q W n ≠ some i := by
      intro hran
      rw [ticksOf_succ_self hran] at hnil
      simp at hnil
    rw [ticksOf_succ_other hran] at hnil
    have hjoin := ahead_join hQ hi (n := n) (by omega) fun h => ih h hnil
    rcases hjoin.tick hQ (line_paced hQ W n).le
      (rrAfter Q W (n + 1)).base.running.isNone with ⟨hcalled, -⟩ | hahead
    · rw [← line_schedule hQ, lineOf_inService] at hcalled
      exact absurd hcalled hran
    · rw [← line_schedule hQ, ← line_tick hQ] at hahead
      convert hahead using 1
      push_cast
      omega

/-- An unstarted process has not waited longer than a quantum for each other process. -/
theorem waited_le (n : ℕ) (harr : (W.proc i).arrivalTime ≤ n)
    (hnil : ticksOf (rrRan Q W) i n = []) :
    n - (W.proc i).arrivalTime ≤ (W.procs.length - 1) * Q := by
  have hjoin := ahead_join hQ hi harr fun h => ahead_run hQ hi n h hnil
  have hslice : ((lineOf (rrAfter Q W n)).join (arrivingAt W n)).slice ≤ Q := (line_paced hQ W n).le
  have hnonneg := hjoin.nonneg (by omega) hslice
  have hcast : ((W.procs.length - 1 : ℕ) : ℤ) = W.procs.length - 1 := by omega
  rw [hcast, Int.mul_comm] at hnonneg
  omega

end Response

/-- **Round robin bounds the response time.**  With `n` processes in the workload, a process that
was started has a response time of at most `(n - 1) * Q`, and a process that has arrived and was
not started after the ticks `0, ..., t` has waited for less than that.
SOURCE: pkg/cpu/sched_rr.go:44-111 -/
theorem rr_response (Q : ℤ) (hQ : 1 ≤ Q) (W : Workload) (t i : ℕ) (hi : i < W.procs.length) :
    let p := (((SchedulerKind.rr Q).load W.procs).run (t + 1)).base.proc i
    (p.startTime ≠ -1 → p.responseTime ≤ (W.procs.length - 1) * Q) ∧
      (p.startTime = -1 → p.arrivalTime ≤ t →
        t - p.arrivalTime < (W.procs.length - 1) * Q) := by
  intro p
  obtain ⟨hv, -⟩ := schedInv_run (.rr Q) W (t + 1)
  have harrival : p.arrivalTime = (W.proc i).arrivalTime :=
    (job_run (.rr Q) W (t + 1) hi).arrival_eq
  have hstart : StartOk (rrRan Q W) (t + 1) i p := hv.startOk hi
  rw [harrival]
  rcases hstart with ⟨hnil, hunstarted⟩ | ⟨k, hhead, hstarted, hresponse⟩
  · refine ⟨fun h => absurd hunstarted h, fun _ harr => ?_⟩
    have hle := waited_le hQ hi (t + 1) (by omega) hnil
    push_cast at hle
    omega
  · refine ⟨fun _ => ?_, fun h => by omega⟩
    obtain ⟨hran, -, hnil⟩ := ticksOf_head hhead
    have harr : W.jobSet.arrival i ≤ k := (feasible_run (.rr Q) W).arrived hran
    have harr : (W.proc i).arrivalTime ≤ k := Int.toNat_le.mp harr
    rw [hresponse, harrival]
    exact waited_le hQ hi k harr hnil

/-- The second of the two is started at tick `2`. -/
theorem rr_response_twoEqual :
    let p := (((SchedulerKind.rr 2).load twoEqual.procs).run 3).base.proc 1
    p.startTime = 2 ∧ p.responseTime ≤ 2 :=
  ⟨by decide, (rr_response 2 (by decide) twoEqual 2 1 (by decide)).1 (by decide)⟩

end OsSimulator.Analysis
