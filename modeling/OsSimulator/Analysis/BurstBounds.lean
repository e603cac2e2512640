import OsSimulator.Analysis.KernelProcesses
import OsSimulator.Analysis.LotteryDraw

/-!
# Bursts of zero

`NewProcess` accepts a burst of `0`, and all six schedulers notice a completion by the equality of
the remaining time with `0` after a decrement.  A process without work left before its first tick
steps over that equality: it never completes (`Stuck`), and it keeps the slot of a scheduler that
does not preempt.

* `completes_in_time_iff`: no remaining time becomes negative and all processes complete in time
  exactly when every burst is positive and, for a lottery, every process has a ticket.
* `completes_in_time_fails_zeroFirst`: a burst of `0` in front of another process.
-/

set_option autoImplicit false

namespace OsSimulator.Analysis

open Model Interface Library

/-! ## A process without work left -/

/-- Process `i` has nothing left to do and is not completed. -/
structure Stuck (i : ℕ) (v : SchedView) : Prop where
  lt_size : i < v.size
  remaining : (v.proc i).remainingTime ≤ 0
  unfinished : i ∉ v.completed

section Moves

variable {i : ℕ} {t : ℤ} {v v' : SchedView}

theorem Stuck.of_updates {f : ℕ → Process → Process} (hv : Stuck i v) (hu : Updates f v v')
    (hf : (f i (v.proc i)).remainingTime ≤ (v.proc i).remainingTime) (hc : i ∉ v'.completed) :
    Stuck i v' := by
  refine ⟨?_, ?_, hc⟩
  · rw [hu.size_eq]
    exact hv.lt_size
  · rw [hu.proc_eq i hv.lt_size]
    exact le_trans hf hv.remaining

theorem Stuck.reordered (hv : Stuck i v) (h : Reordered v v') : Stuck i v' :=
  hv.of_updates h.updates le_rfl (by rw [h.completed_eq]; exact hv.unfinished)

theorem only_remaining_le {j : ℕ} {f : Process → Process} {p : Process}
    (hf : (f p).remainingTime ≤ p.remainingTime) :
    (only j f i p).remainingTime ≤ p.remainingTime := by
  unfold only
  split
  · exact hf
  · exact le_rfl

theorem Stuck.arrived (hv : Stuck i v) (h : Arrived t v v') : Stuck i v' := by
  refine hv.of_updates h.updates ?_ (by rw [h.completed_eq]; exact hv.unfinished)
  unfold Process.enter
  split <;> exact le_rfl

theorem Stuck.preempted (hv : Stuck i v) (h : Preempted v v') : Stuck i v' := by
  cases h with
  | keep hr => exact hv.reordered hr
  | yield j slot free updates ready_perm completed_eq =>
    exact hv.of_updates updates (only_remaining_le le_rfl)
      (by rw [completed_eq]; exact hv.unfinished)

theorem Stuck.dispatched (hv : Stuck i v) (h : Dispatched t v v') : Stuck i v' := by
  cases h with
  | keep hr => exact hv.reordered hr
  | start j free slot updates ready_perm completed_eq =>
    refine hv.of_updates updates (only_remaining_le ?_)
      (by rw [completed_eq]; exact hv.unfinished)
    unfold Process.dispatch
    split <;> exact le_rfl

/-- The decrement of a remaining time that is not positive does not give `0`. -/
theorem Stuck.executed (hv : Stuck i v) (h : Executed t v v') : Stuck i v' := by
  have hless : ∀ p : Process, p.execute.remainingTime ≤ p.remainingTime := fun p => by
    show p.remainingTime - 1 ≤ p.remainingTime
    omega
  cases h with
  | idle free hr => exact hv.reordered hr
  | work j slot slot' more updates ready_eq completed_eq =>
    exact hv.of_updates updates (only_remaining_le (hless _))
      (by rw [completed_eq]; exact hv.unfinished)
  | finish j slot free last updates ready_eq completed_eq =>
    refine hv.of_updates updates (only_remaining_le (hless _)) ?_
    rw [completed_eq, List.mem_append, List.mem_singleton]
    rintro (hi | rfl)
    · exact hv.unfinished hi
    · have := hv.remaining
      omega

/-- **One tick does not complete a stuck process**, whatever the scheduler. -/
theorem Stuck.tick {s : Scheduler} (hl : LevelsInRange s) (hs : InRange (schedView s))
    (hv : Stuck i (schedView s)) : Stuck i (schedView (s.tick t)) := by
  obtain ⟨v₁, v₂, ha, hp, hd⟩ := schedule_phases t s hl
  have hmid := inRange_schedule (t := t) hl hs
  exact (((hv.arrived ha).preempted hp).dispatched hd).executed (executed_tick t s hmid)

end Moves

/-! ## Runs of any processes -/

/-- The queues and the slot of a run hold known processes only. -/
theorem inRange_run (k : SchedulerKind) (procs : List Process) (n : ℕ) :
    LevelsInRange ((k.load procs).run n) ∧ InRange (schedView ((k.load procs).run n)) := by
  obtain ⟨hbase, hready, hlevels⟩ := load_spec k procs
  induction n with
  | zero =>
    refine ⟨hlevels, ?_, ?_⟩
    · intro i hi
      have hi : i ∈ (k.load procs).ready := hi
      rw [hready] at hi
      cases hi
    · intro i hi
      have hi : (k.load procs).base.running = some i := hi
      rw [hbase] at hi
      cases hi
  | succ n ih => exact ⟨ih.1.tick n, inRange_tick ih.1 ih.2⟩

theorem stuck_run (k : SchedulerKind) {procs : List Process} {i : ℕ} (hi : i < procs.length)
    (hburst : procs[i].burstTime ≤ 0) (n : ℕ) :
    Stuck i (schedView ((k.load procs).run n)) := by
  induction n with
  | zero =>
    have hbase := (load_spec k procs).1
    have hlen : i < (procs.map Process.clone).length := by rw [List.length_map]; exact hi
    refine ⟨?_, ?_, ?_⟩
    · show i < (k.load procs).base.allProcesses.length
      rw [hbase]
      exact hlen
    · show ((k.load procs).base.proc i).remainingTime ≤ 0
      rw [hbase, SchedBase.proc, List.getD_eq_getElem _ _ hlen, List.getElem_map]
      exact hburst
    · show i ∉ (k.load procs).base.completed
      rw [hbase]
      exact List.not_mem_nil
  | succ n ih =>
    obtain ⟨hl, hs⟩ := inRange_run k procs n
    exact ih.tick hl hs

/-! ## A process without tickets -/

section Lottery

variable {W : Workload} {i : ℕ}

/-- The tickets in the queue of a run are those of distinct processes of the workload. -/
theorem queueTickets_atDraw {h : ℕ → Option ℕ} {n : ℕ} {s : LotteryScheduler}
    (hinv : SchedInv W h n n (Slot h n n) (schedView (.lottery s)))
    (hnonneg : ∀ p ∈ W.procs, 0 ≤ p.tickets) :
    (∀ j < W.procs.length, ((atDraw n s).proc j).tickets = (W.proc j).tickets) ∧
      (∀ x ∈ queueTickets (atDraw n s), 0 ≤ x) ∧
      (queueTickets (atDraw n s)).sum ≤ (W.procs.map Process.tickets).sum := by
  have hmid : SchedInv W h n (n + 1) (Kept h n (n + 1))
      (baseView (atDraw n s).toSchedBase (atDraw n s).readyQueue) :=
    (hinv.arrived (ReadyBase.arrived n s.toReadyBase)).preempted
      (slice_preempted { s.toSliceBase with toReadyBase := s.toReadyBase.arrive n })
  have htickets : ∀ j < W.procs.length, ((atDraw n s).proc j).tickets = (W.proc j).tickets :=
    fun j hj => (hmid.job j (hmid.lt_size hj)).tickets_eq
  have hready : ∀ j ∈ (atDraw n s).readyQueue, j < W.procs.length := fun j hj =>
    hmid.lt_length (mem_places_of_ready hj)
  have hnd : (atDraw n s).readyQueue.Nodup :=
    (List.nodup_append.mp (List.nodup_append.mp hmid.nodup).1).1
  have hqueue : queueTickets (atDraw n s) =
      (atDraw n s).readyQueue.map fun j => (W.proc j).tickets :=
    List.map_congr_left fun j hj => htickets j (hready j hj)
  rw [hqueue]
  refine ⟨htickets, ?_, Workload.sum_tickets_le hnonneg hnd hready⟩
  intro x hx
  obtain ⟨j, hj, rfl⟩ := List.mem_map.mp hx
  exact hnonneg _ (W.proc_mem (hready j hj))

/-- A process without tickets does not come into the slot. -/
theorem lottery_slot_ne {h : ℕ → Option ℕ} {n : ℕ} {s : LotteryScheduler}
    (hinv : SchedInv W h n n (Slot h n n) (schedView (.lottery s)))
    (hnonneg : ∀ p ∈ W.procs, 0 ≤ p.tickets)
    (hfit : (W.procs.map Process.tickets).sum < 2 ^ 63) (hi : i < W.procs.length)
    (hzero : (W.proc i).tickets = 0) (hrun : s.running ≠ some i) :
    (s.schedule n).running ≠ some i := by
  intro hexec
  rw [schedule_eq_draw] at hexec
  cases lottery_dispatched n (atDraw n s) with
  | keep hr =>
    have hkept : (atDraw n s).running = some i := hr.running_eq.symm.trans hexec
    cases slice_preempted { s.toSliceBase with toReadyBase := s.toReadyBase.arrive n } with
    | keep hr' => exact hrun (hr'.running_eq.symm.trans hkept)
    | yield j slot free updates ready_perm completed_eq =>
      have hfree : (atDraw n s).running = none := free
      rw [hfree] at hkept
      cases hkept
  | start j free slot updates ready_perm completed_eq =>
    obtain ⟨htickets, hqueue, hsum⟩ := queueTickets_atDraw hinv hnonneg
    have hpos := tickets_pos_of_draw free hqueue (lt_of_le_of_lt hsum hfit) hexec
    rw [htickets i hi, hzero] at hpos
    exact lt_irrefl _ hpos

/-- A lottery whose tickets fit never executes a process that has none. -/
theorem lottery_executes_holders (quantum : ℤ) (rng : Rand)
    (hnonneg : ∀ p ∈ W.procs, 0 ≤ p.tickets)
    (hfit : (W.procs.map Process.tickets).sum < 2 ^ 63) (hi : i < W.procs.length)
    (hzero : (W.proc i).tickets = 0) (n : ℕ) :
    ((SchedulerKind.lottery quantum rng).load W.procs).executedAt n ≠ some i := by
  have hslot : ∀ n,
      (((SchedulerKind.lottery quantum rng).load W.procs).run n).base.running ≠ some i →
        ((SchedulerKind.lottery quantum rng).load W.procs).executedAt n ≠ some i := by
    intro n hrun
    obtain ⟨s, hs⟩ := run_discipline (C := .lottery) (k := .lottery quantum rng) ⟨_, rfl⟩
      (fun _ _ => ⟨_, rfl⟩) (fun _ _ => ⟨_, rfl⟩) W.procs n
    have hinv := (schedInv_run (.lottery quantum rng) W n).1
    unfold Scheduler.executedAt
    rw [hs] at hrun hinv ⊢
    exact lottery_slot_ne hinv hnonneg hfit hi hzero hrun
  apply hslot
  induction n with
  | zero =>
    show ((SchedulerKind.lottery quantum rng).load W.procs).base.running ≠ some i
    rw [(load_spec _ W.procs).1]
    exact (Option.some_ne_none i).symm
  | succ n ih => exact fun hrun => hslot n ih (executedAt_of_running hrun)

end Lottery

/-! ## The deadline -/

/-- The latest arrival. -/
def latestArrival (procs : List Process) : ℤ := (procs.map Process.arrivalTime).foldr max 0

/-- The latest arrival, the sum of the bursts and the number of processes. -/
def deadline (procs : List Process) : ℕ :=
  (latestArrival procs + (procs.map Process.burstTime).sum + procs.length).toNat

theorem le_latestArrival {procs : List Process} {p : Process} (hp : p ∈ procs) :
    p.arrivalTime ≤ latestArrival procs := by
  unfold latestArrival
  induction procs with
  | nil => cases hp
  | cons q procs ih =>
    rw [List.map_cons, List.foldr_cons]
    rcases List.mem_cons.mp hp with rfl | hp
    · exact le_max_left _ _
    · exact le_trans (ih hp) (le_max_right _ _)

theorem latestArrival_nonneg (procs : List Process) : 0 ≤ latestArrival procs := by
  unfold latestArrival
  induction procs with
  | nil => exact le_rfl
  | cons q procs ih =>
    rw [List.map_cons, List.foldr_cons]
    exact le_trans ih (le_max_right _ _)

/-- **Every work-conserving run meets the deadline.** -/
theorem completes_by_deadline {k : SchedulerKind} {W : Workload}
    (hW : drawsTickets k.new = true → TicketsFit W) {i : ℕ} (hi : i < W.procs.length) :
    i ∈ ((k.load W.procs).run (deadline W.procs + 1)).base.completed := by
  have hlatest := latestArrival_nonneg W.procs
  have harrival : ∀ j ∈ W.jobSet.jobs, W.jobSet.arrival j ≤ (latestArrival W.procs).toNat := by
    intro j hj
    have := le_latestArrival (W.proc_mem (Finset.mem_range.mp hj))
    show (W.proc j).arrivalTime.toNat ≤ _
    omega
  have hbursts : ((∑ j ∈ W.jobSet.jobs, W.jobSet.burst j : ℕ) : ℤ) =
      (W.procs.map Process.burstTime).sum := by
    rw [W.sum_proc, Nat.cast_sum]
    refine Finset.sum_congr rfl fun j hj => ?_
    have := W.burst_pos _ (W.proc_mem (Finset.mem_range.mp hj))
    exact Int.toNat_of_nonneg (by omega)
  have hleft : W.jobSet.totalLeft (k.load W.procs).executedAt (deadline W.procs + 1) = 0 := by
    apply (workConserving_run hW).totalLeft_eq_zero harrival
    unfold deadline
    omega
  rw [completed_iff_left k W _ hi]
  exact Finset.sum_eq_zero_iff.mp hleft i (Finset.mem_range.mpr hi)

theorem map_map_clone {α : Type} {f : Process → α} (hf : ∀ p, f p.clone = f p)
    (procs : List Process) : (procs.map Process.clone).map f = procs.map f := by
  rw [List.map_map]
  exact List.map_congr_left fun p _ => hf p

theorem deadline_map_clone (procs : List Process) :
    deadline (procs.map Process.clone) = deadline procs := by
  unfold deadline latestArrival
  rw [map_map_clone (fun _ => rfl), map_map_clone (fun _ => rfl), List.length_map]

/-- A lottery does not complete a process without tickets. -/
theorem lottery_not_completed (quantum : ℤ) (rng : Rand) {W : Workload} {i : ℕ}
    (hnonneg : ∀ p ∈ W.procs, 0 ≤ p.tickets)
    (hfit : (W.procs.map Process.tickets).sum < 2 ^ 63) (hi : i < W.procs.length)
    (hzero : (W.proc i).tickets = 0) (n : ℕ) :
    i ∉ (((SchedulerKind.lottery quantum rng).load W.procs).run n).base.completed := by
  rw [completed_iff_left _ W n hi]
  have hserved : served ((SchedulerKind.lottery quantum rng).load W.procs).executedAt i n = 0 :=
    Nat.count_of_forall_not fun {m} _ =>
      lottery_executes_holders quantum rng hnonneg hfit hi hzero m
  have hburst := W.burst_pos _ (W.proc_mem hi)
  unfold JobSet.left
  rw [hserved]
  show (W.proc i).burstTime.toNat - 0 ≠ 0
  omega

section Clones

variable {k : SchedulerKind} {procs : List Process}
  (harrival : ∀ p ∈ procs, 0 ≤ p.arrivalTime) (hburst : ∀ p ∈ procs, 1 ≤ p.burstTime)

theorem Workload.length_ofClones :
    (Workload.ofClones procs harrival hburst).procs.length = procs.length :=
  List.length_map ..

theorem Workload.proc_ofClones {i : ℕ} (hi : i < procs.length) :
    (Workload.ofClones procs harrival hburst).proc i = procs[i].clone := by
  rw [Workload.proc, List.getD_eq_getElem _ _ (by rw [Workload.length_ofClones]; exact hi)]
  exact List.getElem_map ..

theorem Workload.tickets_ofClones {P : ℤ → Prop} (hP : ∀ p ∈ procs, P p.tickets) :
    ∀ p ∈ (Workload.ofClones procs harrival hburst).procs, P p.tickets := by
  intro p hp
  obtain ⟨q, hq, rfl⟩ := List.mem_map.mp hp
  exact hP q hq

theorem Workload.sum_tickets_ofClones :
    ((Workload.ofClones procs harrival hburst).procs.map Process.tickets).sum =
      (procs.map Process.tickets).sum :=
  congrArg List.sum (map_map_clone (fun _ => rfl) procs)

include harrival hburst

/-- With positive bursts and tickets that fit every process completes in time. -/
theorem completes_of_positive
    (hpos : drawsTickets k.new = true → ∀ p ∈ procs, 1 ≤ p.tickets)
    (hfit : drawsTickets k.new = true → (procs.map Process.tickets).sum < 2 ^ 63) :
    (∀ n, ∀ i < procs.length, 0 ≤ (((k.load procs).run n).base.proc i).remainingTime) ∧
      ∀ i < procs.length, i ∈ ((k.load procs).run (deadline procs + 1)).base.completed := by
  let W := Workload.ofClones procs harrival hburst
  have hW : drawsTickets k.new = true → TicketsFit W := by
    intro hdraws
    refine ⟨Workload.tickets_ofClones harrival hburst (hpos hdraws), ?_⟩
    rw [Workload.sum_tickets_ofClones]
    exact hfit hdraws
  have hlen : W.procs.length = procs.length := Workload.length_ofClones harrival hburst
  rw [← load_map_clone k procs, ← deadline_map_clone procs]
  refine ⟨fun n i hi => ?_, fun i hi => completes_by_deadline hW (hlen.symm ▸ hi)⟩
  have hleft := remaining_run k W n (i := i) (hlen.symm ▸ hi)
  show 0 ≤ (((k.load W.procs).run n).base.proc i).remainingTime
  rw [hleft]
  exact Int.natCast_nonneg _

/-- Only a process with a ticket completes in a lottery. -/
theorem tickets_pos_of_completed {quantum : ℤ} {rng : Rand}
    (hnonneg : ∀ p ∈ procs, 0 ≤ p.tickets) (hfit : (procs.map Process.tickets).sum < 2 ^ 63)
    {i n : ℕ} (hi : i < procs.length)
    (hdone : i ∈ (((SchedulerKind.lottery quantum rng).load procs).run n).base.completed) :
    1 ≤ procs[i].tickets := by
  let W := Workload.ofClones procs harrival hburst
  by_contra hlt
  have hzero : (W.proc i).tickets = 0 := by
    rw [Workload.proc_ofClones harrival hburst hi]
    show procs[i].tickets = 0
    have := hnonneg _ (List.getElem_mem hi)
    omega
  have hi' : i < W.procs.length := (Workload.length_ofClones harrival hburst).symm ▸ hi
  rw [← load_map_clone] at hdone
  refine lottery_not_completed quantum rng (W := W) ?_ ?_ hi' hzero n hdone
  · exact Workload.tickets_ofClones harrival hburst hnonneg
  · rw [Workload.sum_tickets_ofClones]
    exact hfit

end Clones

/-- **No process runs past its burst, unless a burst is zero.**  No remaining time is ever negative
and every process is completed by the tick of the latest arrival, the sum of the bursts and the
number of processes, exactly when every burst is positive and, for a lottery, every process has a
ticket.
SOURCE: pkg/cpu/sched_fifo.go:66-96, pkg/cpu/sched_sjf.go:178-205, pkg/cpu/sched_mlfq.go:166-196,
pkg/cpu/process.go:72-88 -/
theorem completes_in_time_iff (k : SchedulerKind) (procs : List Process)
    (harrival : ∀ p ∈ procs, 0 ≤ p.arrivalTime)
    (htickets : drawsTickets k.new = true →
      (∀ p ∈ procs, 0 ≤ p.tickets) ∧ (procs.map Process.tickets).sum < 2 ^ 63) :
    ((∀ n, ∀ i < procs.length, 0 ≤ (((k.load procs).run n).base.proc i).remainingTime) ∧
        ∀ i < procs.length, i ∈ ((k.load procs).run (deadline procs + 1)).base.completed) ↔
      (∀ p ∈ procs, 1 ≤ p.burstTime) ∧
        (drawsTickets k.new = true → ∀ p ∈ procs, 1 ≤ p.tickets) := by
  constructor
  · rintro ⟨-, hdone⟩
    have hburst : ∀ p ∈ procs, 1 ≤ p.burstTime := by
      intro p hp
      obtain ⟨i, hi, rfl⟩ := List.getElem_of_mem hp
      by_contra hlt
      exact (stuck_run k hi (by omega) _).unfinished (hdone i hi)
    refine ⟨hburst, fun hdraws p hp => ?_⟩
    obtain ⟨hnonneg, hfit⟩ := htickets hdraws
    cases k with
    | lottery quantum rng =>
      obtain ⟨i, hi, rfl⟩ := List.getElem_of_mem hp
      exact tickets_pos_of_completed harrival hburst hnonneg hfit hi (hdone i hi)
    | _ => cases hdraws
  · rintro ⟨hburst, hpos⟩
    exact completes_of_positive harrival hburst hpos fun hdraws => (htickets hdraws).2

/-- A late process and an early one meet the deadline `8`. -/
theorem completes_in_time_iff_late :
    let procs := [newProcess 1 "P1" 3 2, newProcess 2 "P2" 0 1]
    deadline procs = 8 ∧
      ∀ i < 2, i ∈ ((SchedulerKind.fifo.load procs).run (8 + 1)).base.completed := by
  intro procs
  have hiff := completes_in_time_iff .fifo procs (by decide) (fun hdraws => by cases hdraws)
  exact ⟨rfl, (hiff.mpr ⟨by decide, fun hdraws => by cases hdraws⟩).2⟩

/-- A burst of `0` in front of another process: after tick `0` its remaining time is `-1`, it holds
the slot, and neither process is completed at the deadline. -/
theorem completes_in_time_fails_zeroFirst :
    let procs := [newProcess 1 "P1" 0 0, newProcess 2 "P2" 0 3]
    let s := SchedulerKind.fifo.load procs
    ((s.run 1).base.proc 0).remainingTime = -1 ∧ deadline procs = 5 ∧
      (s.run (5 + 1)).base.running = some 0 ∧ (s.run (5 + 1)).base.completed = [] := by
  decide

end OsSimulator.Analysis
