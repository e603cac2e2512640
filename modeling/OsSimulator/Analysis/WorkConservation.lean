import OsSimulator.Analysis.SchedTimings
import OsSimulator.Library.UnitSchedule
import Mathlib.Algebra.BigOperators.Intervals
import Mathlib.Algebra.BigOperators.Ring.Finset
import Mathlib.Algebra.Order.Group.Int

/-!
# The schedulers never idle while there is work

A run of a scheduler, read as the history of its executed processes, is a feasible
schedule of the workload in the sense of `Library.UnitSchedule` (`feasible_run`), and
the remaining time of a process is what the schedule leaves of its burst
(`remaining_run`).

A tick leaves the running slot empty only when the ready queue is empty
(`ready_eq_nil_of_idle`).  For the lottery this needs the sum of the tickets to be
positive as a 64-bit number; `twoRich` is a workload where the sum wraps around and the
lottery never dispatches anything.  Otherwise all six schedulers are work-conserving
(`workConserving_run`) and agree on when the CPU is busy (`schedulers_agree`).
-/

set_option autoImplicit false

namespace OsSimulator.Analysis

open Model Interface Library

/-! ## A run as a schedule -/

def Workload.jobSet (W : Workload) : JobSet ℕ where
  jobs := Finset.range W.procs.length
  arrival := fun i => (W.proc i).arrivalTime.toNat
  burst := fun i => (W.proc i).burstTime.toNat

theorem ticksOf_length (h : ℕ → Option ℕ) (i n : ℕ) : (ticksOf h i n).length = served h i n := by
  induction n with
  | zero => rfl
  | succ n ih =>
    rw [served_succ]
    by_cases hn : h n = some i
    · rw [ticksOf_succ_self hn, List.length_append, ih, if_pos hn, List.length_singleton]
    · rw [ticksOf_succ_other hn, ih, if_neg hn, Nat.add_zero]

section Remaining

variable {W : Workload} {h : ℕ → Option ℕ} {n : ℕ} {now : ℤ} {R : ℕ → Process → Prop}
  {v : SchedView}

/-- In every place the remaining time is what service leaves of the burst. -/
theorem SchedInv.remaining_eq (hv : SchedInv W h n now R v)
    (hR : ∀ i p, R i p → ∃ extra, Active h n now i p extra) {i : ℕ} (hi : i < W.procs.length) :
    (v.proc i).remainingTime = W.jobSet.left h n i := by
  have hiv : i < v.size := hv.lt_size hi
  have hburst : (v.proc i).burstTime = (W.proc i).burstTime := (hv.job i hiv).burst_eq
  have hpos := W.burst_pos _ (W.proc_mem hi)
  have hactive : ∀ extra, Active h n now i (v.proc i) extra →
      (v.proc i).remainingTime = W.jobSet.left h n i := by
    intro extra hact
    have hwork := hact.work_eq
    have hrem := hact.remaining_pos
    rw [ticksOf_length] at hwork
    simp only [JobSet.left, Workload.jobSet]
    omega
  by_cases hmem : i ∈ places v
  · rcases mem_places.mp hmem with hr | hr | hr
    · exact hactive 0 (hv.ready i hr).2.1
    · obtain ⟨extra, hact⟩ := hR i _ (hv.running i hr).2
      exact hactive extra hact
    · have hfin := hv.completed i hr
      have hwork := hfin.work_eq
      rw [ticksOf_length] at hwork
      rw [hfin.remaining_eq]
      simp only [JobSet.left, Workload.jobSet]
      omega
  · have hp := hv.pending i hiv hmem
    have hserved : served h i n = 0 := by rw [← ticksOf_length, hp.ticks_eq, List.length_nil]
    rw [hp.untouched, hburst]
    simp only [JobSet.left, Workload.jobSet, hserved]
    omega

end Remaining

variable (k : SchedulerKind) (W : Workload)

theorem remaining_run (n : ℕ) {i : ℕ} (hi : i < W.procs.length) :
    (((k.load W.procs).run n).base.proc i).remainingTime =
      W.jobSet.left (k.load W.procs).executedAt n i :=
  (schedInv_run k W n).1.remaining_eq (fun _ _ hslot => ⟨1, hslot.1⟩) hi

/-- The invariant in the middle of tick `n` of a run. -/
theorem schedInv_scheduled (n : ℕ) :
    SchedInv W (k.load W.procs).executedAt n (n + 1)
      (Chosen (k.load W.procs).executedAt n (n + 1))
      (schedView (((k.load W.procs).run n).schedule n)) :=
  (schedInv_run k W n).1.schedule (schedInv_run k W n).2

theorem remaining_scheduled (n : ℕ) {i : ℕ} (hi : i < W.procs.length) :
    ((((k.load W.procs).run n).schedule n).base.proc i).remainingTime =
      W.jobSet.left (k.load W.procs).executedAt n i :=
  (schedInv_scheduled k W n).remaining_eq (fun _ _ hchosen => ⟨0, hchosen.1⟩) hi

/-- A waiting process is not executed. -/
theorem executed_ne_of_ready {i n : ℕ} (hi : i ∈ (((k.load W.procs).run n).schedule n).ready) :
    (k.load W.procs).executedAt n ≠ some i := fun hran =>
  not_ready_of_running (schedInv_scheduled k W n).nodup hran hi

/-- A process with work present is ready or executed: it has arrived and is not completed. -/
theorem ready_or_executed_of_present {i n : ℕ} (hi : i < W.procs.length)
    (hpos : 0 < W.jobSet.present (k.load W.procs).executedAt n i) :
    i ∈ (((k.load W.procs).run n).schedule n).ready ∨ (k.load W.procs).executedAt n = some i := by
  have hmid := schedInv_scheduled k W n
  obtain ⟨harr, hunfinished⟩ := JobSet.present_pos_iff.mp hpos
  by_cases hmem : i ∈ places (schedView (((k.load W.procs).run n).schedule n))
  · rcases mem_places.mp hmem with hr | hr | hr
    · exact .inl hr
    · exact .inr hr
    · have hleft := remaining_scheduled k W n hi
      have hzero : ((((k.load W.procs).run n).schedule n).base.proc i).remainingTime = 0 :=
        (hmid.completed i hr).remaining_eq
      unfold JobSet.left at hleft
      omega
  · have hlater := (hmid.pending i (hmid.lt_size hi) hmem).later
    rw [(hmid.job i (hmid.lt_size hi)).arrival_eq] at hlater
    have : (W.proc i).arrivalTime.toNat ≤ n := harr
    omega

/-- **Every run is a feasible schedule** of its workload. -/
theorem feasible_run : W.jobSet.Feasible (k.load W.procs).executedAt := by
  have hchosen : ∀ {n i}, (k.load W.procs).executedAt n = some i → i < W.procs.length ∧
      (W.proc i).arrivalTime < n + 1 ∧ 0 < W.jobSet.left (k.load W.procs).executedAt n i := by
    intro n i hrun
    have hmid := schedInv_scheduled k W n
    have hi := hmid.lt_length (mem_places_of_running hrun)
    have hact := (hmid.running i hrun).2.1
    have harr := hact.arrived
    rw [(hmid.job i (hmid.lt_size hi)).arrival_eq] at harr
    refine ⟨hi, harr, ?_⟩
    have hrem := hact.remaining_pos
    rw [hmid.remaining_eq (fun _ _ hc => ⟨0, hc.1⟩) hi] at hrem
    exact Int.natCast_pos.mp hrem
  constructor
  · intro n i hrun
    exact Finset.mem_range.mpr (hchosen hrun).1
  · intro n i hrun
    have harr := (hchosen hrun).2.1
    show (W.proc i).arrivalTime.toNat ≤ n
    omega
  · intro n i hrun
    have hleft := (hchosen hrun).2.2
    unfold JobSet.left at hleft
    omega

/-! ## Empty slots -/

/-- Only the lottery looks at the tickets. -/
def drawsTickets : Scheduler → Bool
  | .lottery _ => true
  | _ => false

theorem drawsTickets_run (k : SchedulerKind) (procs : List Process) (n : ℕ) :
    drawsTickets ((k.load procs).run n) = drawsTickets k.new := by
  apply run_induction (P := fun s => drawsTickets s = drawsTickets k.new)
  · rfl
  · intro p s hs
    rw [← hs]
    cases s <;> rfl
  · intro t s hs
    rw [← hs]
    cases s <;> rfl

variable {k : SchedulerKind} {queue : List ℕ} {W : Workload} {t : ℤ}

/-- A queue whose head would have been dispatched is empty. -/
theorem eq_nil_of_no_head {running : Option ℕ} (hidle : running = none)
    (hno : ∀ i rest, running = none → queue = i :: rest → False) : queue = [] := by
  cases hq : queue with
  | nil => rfl
  | cons i rest => exact absurd hq (hno i rest hidle)

theorem eq_nil_of_sortByKey {key : ℕ → ℤ} (h : sortByKey key queue = []) : queue = [] := by
  have hperm := perm_sortByKey key queue
  rw [h] at hperm
  exact List.nil_perm.mp hperm

theorem fifo_ready_of_idle {s : FIFOScheduler} (hidle : (s.schedule t).running = none) :
    (s.schedule t).readyQueue = [] := by
  simp only [FIFOScheduler.schedule] at *
  generalize s.toReadyBase.arrive t = a at *
  split at hidle
  · simp [SchedBase.dispatch] at hidle
  · rename_i hno
    exact eq_nil_of_no_head hidle hno

theorem sjf_ready_of_idle {s : SJFScheduler} (hidle : (s.schedule t).running = none) :
    (s.schedule t).readyQueue = [] := by
  simp only [SJFScheduler.schedule] at *
  generalize s.toReadyBase.arrive t = a at *
  split at hidle
  · rename_i hrun
    simp [hrun] at hidle
  · split at hidle
    · rename_i hsort
      exact eq_nil_of_sortByKey hsort
    · simp [SchedBase.dispatch] at hidle

theorem stcf_ready_of_idle {s : STCFScheduler} (hidle : (s.schedule t).running = none) :
    (s.schedule t).readyQueue = [] := by
  simp only [STCFScheduler.schedule] at *
  generalize s.toReadyBase.arrive t = a at *
  split at hidle
  · rename_i hsort
    exact eq_nil_of_sortByKey hsort
  · split at hidle
    · simp [SchedBase.dispatch] at hidle
    · rename_i hrun
      split at hidle
      · simp [SchedBase.dispatch] at hidle
      · simp [hrun] at hidle

theorem rr_ready_of_idle {s : RRScheduler} (hidle : (s.schedule t).running = none) :
    (s.schedule t).readyQueue = [] := by
  simp only [RRScheduler.schedule] at *
  generalize SliceBase.expire _ = a at *
  split at hidle
  · simp [SchedBase.dispatch] at hidle
  · rename_i hno
    exact eq_nil_of_no_head hidle hno

/-- All levels are searched. -/
theorem mlfq_ready_of_idle {s : MLFQScheduler} (hidle : (s.schedule t).running = none) :
    (s.schedule t).queues.flatten = [] := by
  simp only [MLFQScheduler.schedule] at *
  generalize ((s.boost t).arrive t).expire = a at *
  unfold MLFQScheduler.pick at *
  split at hidle
  · rename_i hrun
    simp [hrun] at hidle
  · split at hidle
    · rename_i hfind
      rw [List.flatten_eq_nil_iff]
      intro queue hqueue
      have := List.findIdx?_eq_none_iff.mp hfind queue hqueue
      simpa using this
    · simp [SchedBase.dispatch] at hidle

/-- A draw is made when the tickets have a positive sum. -/
theorem lottery_ready_of_idle {s : LotteryScheduler} (hidle : (s.schedule t).running = none)
    (htickets : (s.schedule t).readyQueue ≠ [] →
      0 < totalTickets (fun i => ((s.schedule t).proc i).tickets) (s.schedule t).readyQueue) :
    (s.schedule t).readyQueue = [] := by
  simp only [LotteryScheduler.schedule] at *
  generalize SliceBase.expire _ = slice at *
  unfold LotteryScheduler.draw at *
  dsimp only at *
  split at hidle
  · simp [SchedBase.dispatch] at hidle
  · rename_i hno
    rw [if_neg hno] at htickets ⊢
    by_contra hready
    exact hno ⟨Option.isNone_iff_eq_none.mpr hidle, List.length_pos_iff.mpr hready,
      htickets hready⟩

/-- A tick leaves the slot empty only if nothing is ready, provided that for a lottery the
tickets in the ready queue have a positive sum. -/
theorem ready_eq_nil_of_idle (t : ℤ) (s : Scheduler)
    (hidle : (s.schedule t).base.running = none)
    (htickets : drawsTickets s = true → (s.schedule t).ready ≠ [] →
      0 < totalTickets (fun i => ((s.schedule t).base.proc i).tickets) (s.schedule t).ready) :
    (s.schedule t).ready = [] := by
  cases s with
  | fifo s => exact fifo_ready_of_idle hidle
  | sjf s => exact sjf_ready_of_idle hidle
  | stcf s => exact stcf_ready_of_idle hidle
  | rr s => exact rr_ready_of_idle hidle
  | mlfq s => exact mlfq_ready_of_idle hidle
  | lottery s => exact lottery_ready_of_idle hidle (htickets rfl)

/-! ## The sum of the tickets -/

theorem wrap64_of_lt {x : ℤ} (hx : 0 ≤ x) (hlt : x < 2 ^ 63) : wrap64 x = x := by
  unfold wrap64
  rw [Int.bmod_eq_of_le] <;> omega

/-- A sum of tickets that fits in 63 bits is computed exactly. -/
theorem totalTickets_eq {tickets : ℕ → ℤ} (hpos : ∀ i ∈ queue, 0 ≤ tickets i)
    (hsum : (queue.map tickets).sum < 2 ^ 63) :
    totalTickets tickets queue = (queue.map tickets).sum := by
  have hfold : ∀ (queue : List ℕ) (total : ℤ), 0 ≤ total → (∀ i ∈ queue, 0 ≤ tickets i) →
      total + (queue.map tickets).sum < 2 ^ 63 →
      queue.foldl (fun total i => wrap64 (total + tickets i)) total =
        total + (queue.map tickets).sum := by
    intro queue
    induction queue with
    | nil => intro total _ _ _; simp
    | cons p queue ih =>
      intro total htotal hpos hsum
      have hp := hpos p List.mem_cons_self
      have hrest : 0 ≤ (queue.map tickets).sum := by
        apply List.sum_nonneg
        intro x hx
        obtain ⟨i, hi, rfl⟩ := List.mem_map.mp hx
        have := hpos i (List.mem_cons_of_mem _ hi)
        omega
      simp only [List.map_cons, List.sum_cons] at hsum
      rw [List.foldl_cons, wrap64_of_lt (by omega) (by omega),
        ih _ (by omega) (fun i hi => hpos i (List.mem_cons_of_mem _ hi)) (by omega)]
      simp only [List.map_cons, List.sum_cons]
      omega
  simpa [totalTickets] using hfold queue 0 le_rfl hpos (by simpa using hsum)

/-- Every process has a ticket, and the tickets of all fit in a Go `int`. -/
structure TicketsFit (W : Workload) : Prop where
  pos : ∀ p ∈ W.procs, 1 ≤ p.tickets
  sum_lt : (W.procs.map Process.tickets).sum < 2 ^ 63

theorem Workload.sum_proc (W : Workload) (f : Process → ℤ) :
    (W.procs.map f).sum = ∑ i ∈ Finset.range W.procs.length, f (W.proc i) := by
  unfold Workload.proc
  induction W.procs with
  | nil => rfl
  | cons p procs ih =>
    rw [List.map_cons, List.sum_cons, ih, List.length_cons, Finset.sum_range_succ', add_comm]
    rfl

/-- Distinct processes have no more tickets than all together. -/
theorem Workload.sum_tickets_le (hnonneg : ∀ p ∈ W.procs, 0 ≤ p.tickets) (hnd : queue.Nodup)
    (hin : ∀ i ∈ queue, i < W.procs.length) :
    (queue.map fun i => (W.proc i).tickets).sum ≤ (W.procs.map Process.tickets).sum := by
  rw [W.sum_proc, ← List.sum_toFinset _ hnd]
  apply Finset.sum_le_sum_of_subset_of_nonneg
  · intro i hi
    exact Finset.mem_range.mpr (hin i (List.mem_toFinset.mp hi))
  · intro i hi _
    exact hnonneg _ (W.proc_mem (Finset.mem_range.mp hi))

theorem TicketsFit.totalTickets_pos (hW : TicketsFit W) {tickets : ℕ → ℤ} (hnd : queue.Nodup)
    (hin : ∀ i ∈ queue, i < W.procs.length) (heq : ∀ i ∈ queue, tickets i = (W.proc i).tickets)
    (hne : queue ≠ []) : 0 < totalTickets tickets queue := by
  have hpos : ∀ i ∈ queue, 1 ≤ tickets i := by
    intro i hi
    rw [heq i hi]
    exact hW.pos _ (W.proc_mem (hin i hi))
  have hmap : queue.map tickets = queue.map fun i => (W.proc i).tickets :=
    List.map_congr_left heq
  have hfit : (queue.map tickets).sum < 2 ^ 63 := by
    rw [hmap]
    exact lt_of_le_of_lt
      (Workload.sum_tickets_le (fun p hp => le_trans zero_le_one (hW.pos p hp)) hnd hin) hW.sum_lt
  rw [totalTickets_eq (fun i hi => le_trans zero_le_one (hpos i hi)) hfit]
  apply List.sum_pos
  · intro x hx
    obtain ⟨i, hi, rfl⟩ := List.mem_map.mp hx
    have := hpos i hi
    omega
  · simpa using hne

/-! ## Agreement of the six schedulers -/

/-- Only a lottery asks for tickets that fit. -/
theorem ticketsFit_of_no_draw (hk : drawsTickets k.new = false) :
    drawsTickets k.new = true → TicketsFit W := by
  simp [hk]

theorem ready_eq_nil_of_idle_run (hW : drawsTickets k.new = true → TicketsFit W) (n : ℕ)
    (hidle : (k.load W.procs).executedAt n = none) :
    (((k.load W.procs).run n).schedule n).ready = [] := by
  have hmid := schedInv_scheduled k W n
  apply ready_eq_nil_of_idle _ _ hidle
  intro hdraws hne
  rw [drawsTickets_run] at hdraws
  apply (hW hdraws).totalTickets_pos
  · exact (List.nodup_append.mp (List.nodup_append.mp hmid.nodup).1).1
  · intro i hi
    exact hmid.lt_length (mem_places_of_ready hi)
  · intro i hi
    exact (hmid.job i (hmid.inRange i (mem_places_of_ready hi))).tickets_eq
  · exact hne

/-- **Work conservation** of all six schedulers; the lottery needs tickets that fit. -/
theorem workConserving_run (hW : drawsTickets k.new = true → TicketsFit W) :
    W.jobSet.WorkConserving (k.load W.procs).executedAt := by
  refine ⟨feasible_run k W, ?_⟩
  intro n hidle i hi
  have hready := ready_eq_nil_of_idle_run hW n hidle
  by_contra hne
  rcases ready_or_executed_of_present k W (Finset.mem_range.mp hi) (Nat.pos_of_ne_zero hne) with
    hr | hr
  · simp [hready] at hr
  · simp [hidle] at hr

theorem completed_iff_left (k : SchedulerKind) (W : Workload) (n : ℕ) {i : ℕ}
    (hi : i < W.procs.length) :
    i ∈ ((k.load W.procs).run n).base.completed ↔
      W.jobSet.left (k.load W.procs).executedAt n i = 0 := by
  obtain ⟨hv, -⟩ := schedInv_run k W n
  have hrem := remaining_run k W n hi
  have hiv := hv.lt_size hi
  constructor
  · intro hc
    have hzero : (((k.load W.procs).run n).base.proc i).remainingTime = 0 :=
      (hv.completed i hc).remaining_eq
    omega
  · intro hleft
    rw [hleft] at hrem
    by_contra hc
    -- in every other place the remaining time is positive
    have hpos : 0 < ((schedView ((k.load W.procs).run n)).proc i).remainingTime := by
      by_cases hmem : i ∈ places (schedView ((k.load W.procs).run n))
      · rcases mem_places.mp hmem with hr | hr | hr
        · exact (hv.ready i hr).2.1.remaining_pos
        · exact (hv.running i hr).2.1.remaining_pos
        · exact absurd hr hc
      · have hburst := W.burst_pos _ (W.proc_mem hi)
        rw [(hv.pending i hiv hmem).untouched, (hv.job i hiv).burst_eq]
        omega
    exact absurd hrem (ne_of_gt hpos)

theorem allDone_run_iff (k : SchedulerKind) (W : Workload) (n : ℕ) :
    ((k.load W.procs).run n).base.allDone = true ↔
      W.procs ≠ [] ∧ W.jobSet.totalLeft (k.load W.procs).executedAt n = 0 := by
  rw [allDone_iff (schedInv_run k W n).1, JobSet.totalLeft, Finset.sum_eq_zero_iff]
  apply and_congr_right
  intro _
  constructor
  · intro hall i hi
    have hi' := Finset.mem_range.mp hi
    exact (completed_iff_left k W n hi').mp (hall i hi')
  · intro hall i hi
    exact (completed_iff_left k W n hi).mpr (hall i (Finset.mem_range.mpr hi))

theorem busyTime_run (k : SchedulerKind) (W : Workload) (n : ℕ) :
    ((k.load W.procs).run n).base.busyTime =
      Nat.count (fun t => (k.load W.procs).executedAt t ≠ none) n := by
  induction n with
  | zero => simp [Scheduler.run, load_spec]
  | succ n ih =>
    have hstep := tick_busyTime n ((k.load W.procs).run n)
    simp only [Scheduler.run]
    rw [hstep, ih, Nat.count_succ]
    unfold Scheduler.executedAt
    cases (((k.load W.procs).run n).schedule n).base.running <;> simp

/-- Tick `t` executes nothing, and appends the idle segment to the chart. -/
def IdleAt (k : SchedulerKind) (W : Workload) (t : ℕ) : Prop :=
  (k.load W.procs).executedAt t = none

/-- `Tick(t)` is the first to return `done`. -/
def FirstDone (k : SchedulerKind) (W : Workload) (t : ℕ) : Prop :=
  (((k.load W.procs).run t).tickResult t).2 = true ∧
    ∀ u < t, (((k.load W.procs).run u).tickResult u).2 = false

theorem TicketsFit.workConserving (hW : TicketsFit W) (k : SchedulerKind) :
    W.jobSet.WorkConserving (k.load W.procs).executedAt :=
  workConserving_run fun _ => hW

theorem idleAt_iff (k : SchedulerKind) (hW : TicketsFit W) (t : ℕ) :
    IdleAt k W t ↔ ∀ i < W.procs.length, (W.proc i).arrivalTime ≤ t →
      (((k.load W.procs).run t).base.proc i).remainingTime = 0 := by
  unfold IdleAt
  rw [(hW.workConserving k).idle_iff]
  constructor
  · intro hzero i hi harr
    have hp := hzero i (Finset.mem_range.mpr hi)
    have hle : W.jobSet.arrival i ≤ t := Int.toNat_le.mpr harr
    rw [JobSet.present, if_pos hle] at hp
    rw [remaining_run k W t hi, hp]
    rfl
  · intro hzero i hi
    have hi' := Finset.mem_range.mp hi
    unfold JobSet.present
    by_cases harr : W.jobSet.arrival i ≤ t
    · have hrem := hzero i hi' (Int.toNat_le.mp harr)
      rw [remaining_run k W t hi'] at hrem
      rw [if_pos harr]
      exact Int.natCast_eq_zero.mp hrem
    · exact if_neg harr

theorem firstDone_congr {k k' : SchedulerKind} (hW : TicketsFit W) (t : ℕ) :
    FirstDone k W t ↔ FirstDone k' W t := by
  have hdone : ∀ u, (((k.load W.procs).run u).tickResult u).2 =
      (((k'.load W.procs).run u).tickResult u).2 := by
    intro u
    apply Bool.eq_iff_iff.mpr
    apply (allDone_run_iff k W (u + 1)).trans
    rw [(hW.workConserving k).totalLeft_eq_totalLeft (hW.workConserving k')]
    exact (allDone_run_iff k' W (u + 1)).symm
  unfold FirstDone
  simp only [hdone]

theorem exists_firstDone (k : SchedulerKind) (hW : TicketsFit W) (hne : W.procs ≠ []) :
    ∃ t, FirstDone k W t := by
  have hex : ∃ t, (((k.load W.procs).run t).tickResult t).2 = true := by
    obtain ⟨n, hn⟩ := (hW.workConserving k).exists_finished
    -- nothing is finished before the first tick
    cases n with
    | zero =>
      have hpos := W.burst_pos _ (W.proc_mem (List.length_pos_iff.mpr hne))
      have hzero := Finset.sum_eq_zero_iff.mp hn 0
        (Finset.mem_range.mpr (List.length_pos_iff.mpr hne))
      simp only [JobSet.left, Workload.jobSet, served_zero] at hzero
      omega
    | succ t => exact ⟨t, (allDone_run_iff k W (t + 1)).mpr ⟨hne, hn⟩⟩
  refine ⟨Nat.find hex, Nat.find_spec hex, ?_⟩
  intro u hu
  exact Bool.eq_false_iff.mpr (Nat.find_min hex hu)

theorem FirstDone.busyTime {t : ℕ} (hd : FirstDone k W t) :
    ((k.load W.procs).run (t + 1)).base.busyTime = (W.procs.map Process.burstTime).sum := by
  have hleft := ((allDone_run_iff k W (t + 1)).mp hd.1).2
  have hbusy := JobSet.busy_add_totalLeft (feasible_run k W) (t + 1)
  rw [hleft, Nat.add_zero] at hbusy
  rw [busyTime_run, hbusy, W.sum_proc, Nat.cast_sum]
  apply Finset.sum_congr rfl
  intro i hi
  have := W.burst_pos _ (W.proc_mem (Finset.mem_range.mp hi))
  show ((W.proc i).burstTime.toNat : ℤ) = (W.proc i).burstTime
  omega

theorem not_labelOf_idle {name : String} (hname : name ≠ "IDLE") : ¬ LabelOf k name "IDLE" := by
  cases k with
  | mlfq b =>
    rintro ⟨level, hlabel⟩
    have hlast := congrArg (fun s => s.toList.getLast?) hlabel
    simp [List.getLast?_cons] at hlast
  | _ => exact fun h => hname h.symm

/-- **The six schedulers agree** on when the CPU is busy.  For a workload whose tickets
fit: a tick is idle exactly when no arrived process is unfinished; idle ticks, and no
others unless a process is called `IDLE`, have the idle segment in the chart; the idle
ticks and the first tick that reports completion do not depend on the scheduler; and by
then the CPU was busy for the sum of the bursts.
SOURCE: pkg/cpu/scheduler.go, pkg/cpu/cpu_test.go:29-64 -/
theorem schedulers_agree (W : Workload) (hW : TicketsFit W) :
    (∀ k t, IdleAt k W t ↔ ∀ i < W.procs.length, (W.proc i).arrivalTime ≤ (t : ℤ) →
      (((k.load W.procs).run t).base.proc i).remainingTime = 0) ∧
    (∀ k t n, t < n → IdleAt k W t →
      ((k.load W.procs).run n).base.gantt[t]? = some ⟨"IDLE", t, t + 1⟩) ∧
    ((∀ p ∈ W.procs, p.name ≠ "IDLE") → ∀ k t n, t < n →
      ((k.load W.procs).run n).base.gantt[t]? = some ⟨"IDLE", t, t + 1⟩ → IdleAt k W t) ∧
    (∀ k k' t, IdleAt k W t ↔ IdleAt k' W t) ∧
    (∀ k k' t, FirstDone k W t ↔ FirstDone k' W t) ∧
    (W.procs ≠ [] → ∃ t, ∀ k, FirstDone k W t ∧
      ((k.load W.procs).run (t + 1)).base.busyTime = (W.procs.map Process.burstTime).sum) := by
  refine ⟨fun k t => idleAt_iff k hW t, ?_, ?_, ?_, fun k k' t => firstDone_congr hW t, ?_⟩
  · intro k t n ht hidle
    obtain ⟨⟨label, start, stop⟩, hget, hstart, hstop, -, hlabel⟩ := gantt_segment_run k W ht
    obtain rfl : label = "IDLE" := hlabel hidle
    obtain rfl : start = t := hstart
    obtain rfl : stop = t + 1 := hstop
    exact hget
  · intro hnames k t n ht hseg
    obtain ⟨seg, hget, -, -, hlabel, -⟩ := gantt_segment_run k W ht
    obtain rfl : seg = ⟨"IDLE", t, t + 1⟩ := Option.some.inj (hget.symm.trans hseg)
    unfold IdleAt
    cases hran : (k.load W.procs).executedAt t with
    | none => rfl
    | some i =>
      obtain ⟨hi, hname⟩ := hlabel i hran
      exact absurd hname (not_labelOf_idle (hnames _ (W.proc_mem hi)))
  · intro k k' t
    exact (hW.workConserving k).idle_iff_idle (hW.workConserving k') t
  · intro hne
    obtain ⟨t, ht⟩ := exists_firstDone .fifo hW hne
    refine ⟨t, fun k => ?_⟩
    have hk : FirstDone k W t := (firstDone_congr hW t).mp ht
    exact ⟨hk, hk.busyTime⟩

/-- Two processes of the default ten tickets, the second arriving after an idle tick. -/
def lateJob : Workload where
  procs := [newProcess 1 "P1" 0 2, newProcess 2 "P2" 3 1]
  fresh := by simp [Process.clone, newProcess]
  arrival_nonneg := by simp [newProcess]
  burst_pos := by simp [newProcess]

theorem schedulers_agree_lateJob :
    TicketsFit lateJob ∧ IdleAt .fifo lateJob 2 ∧ ∀ q r, IdleAt (.lottery q r) lateJob 2 := by
  have hfit : TicketsFit lateJob := ⟨by decide, by decide⟩
  have hfifo : IdleAt .fifo lateJob 2 := by
    unfold IdleAt
    decide
  exact ⟨hfit, hfifo, fun q r => ((schedulers_agree lateJob hfit).2.2.2.1 .fifo _ 2).mp hfifo⟩

/-- Two processes whose tickets add up to `2 ^ 63`, which is negative as an `int`. -/
def twoRich : Workload where
  procs := [{ newProcess 1 "P1" 0 1 with tickets := 2 ^ 62 },
    { newProcess 2 "P2" 0 1 with tickets := 2 ^ 62 }]
  fresh := by simp [Process.clone, newProcess]
  arrival_nonneg := by simp [newProcess]
  burst_pos := by simp [newProcess]

/-- FIFO executes the first process in tick `0`; the lottery leaves the CPU idle. -/
theorem lottery_idles_twoRich :
    (∀ p ∈ twoRich.procs, 1 ≤ p.tickets) ∧
      ((SchedulerKind.fifo.load twoRich.procs).run 1).base.gantt = [⟨"P1", 0, 1⟩] ∧
      ∀ q r, ((SchedulerKind.load (.lottery q r) twoRich.procs).run 1).base.gantt =
        [⟨"IDLE", 0, 1⟩] := by
  refine ⟨by decide, by rfl, ?_⟩
  intro q r
  rfl

end OsSimulator.Analysis
