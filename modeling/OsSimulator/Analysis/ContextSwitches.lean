import OsSimulator.Analysis.RoundRobinFairness

/-!
# What the context-switch counter counts

`contextSwitches` is incremented by every dispatch.  A tick dispatches when the slot was free, or
when the running process gives it up in that tick (`givesUp`): its slice or its allotment is used
up, or a shorter process is ready.  `slot_step` says this once for the six disciplines.

A process that gives up the slot and is dispatched again at once (`Redispatched`) executes without
a break, but is counted.  The counter is therefore the number of switches in the execution log plus
the number of such ticks (`contextSwitches_eq`); FIFO, SJF and STCF have none.
-/

set_option autoImplicit false

namespace OsSimulator.Analysis

open Model Interface Library

/-! ## One tick -/

/-- The test of STCF: the shortest ready process is shorter than the running one. -/
def shorterReady (s : ReadyBase) : Bool :=
  match sortByKey (fun i => (s.proc i).remainingTime) s.readyQueue, s.running with
  | shortest :: _, some j => decide ((s.proc shortest).remainingTime < (s.proc j).remainingTime)
  | _, _ => false

/-- The test of MLFQ: the allotment or the slice of the running process is used up. -/
def levelUsedUp (s : MLFQScheduler) : Bool :=
  match s.running with
  | some j =>
    let qCfg := s.configs.getD (s.proc j).currentQueue ⟨0, 0, 0⟩
    decide ((s.proc j).allotmentUsed ≥ qCfg.allotment) || decide (s.currentSlice ≥ qCfg.quantum)
  | none => false

/-- The running process is taken out of the slot in tick `t`, by the test of its discipline.
SOURCE: pkg/cpu/sched_sjf.go:161, pkg/cpu/sched_rr.go:60, pkg/cpu/sched_lottery.go:61,
pkg/cpu/sched_mlfq.go:124-145 -/
def givesUp (t : ℤ) : Scheduler → Bool
  | .fifo _ => false
  | .sjf _ => false
  | .stcf s => shorterReady (s.toReadyBase.arrive t)
  | .rr s => s.running.isSome && decide (s.currentSlice ≥ s.quantum)
  | .lottery s => s.running.isSome && decide (s.currentSlice ≥ s.quantum)
  | .mlfq s => levelUsedUp ((s.boost t).arrive t)

/-- What a tick does to the slot and to the counter, before the execution. -/
inductive SlotStep (gives : Bool) (b b' : SchedBase) : Prop where
  | kept (slot : b'.running = b.running) (counter : b'.contextSwitches = b.contextSwitches)
      (stays : gives = false)
  | started (i : ℕ) (slot : b'.running = some i)
      (counter : b'.contextSwitches = b.contextSwitches + 1)
      (free : b.running = none ∨ gives = true)
  | emptied (slot : b'.running = none) (counter : b'.contextSwitches = b.contextSwitches)

/-- The end of a slice: the slot is kept or given up. -/
structure GaveUp (gives : Bool) (b b' : SchedBase) : Prop where
  counter : b'.contextSwitches = b.contextSwitches
  slot : b'.running = if gives then none else b.running

theorem GaveUp.free {gives : Bool} {b b' : SchedBase} (h : GaveUp gives b b')
    (hfree : b'.running = none) : b.running = none ∨ gives = true := by
  cases gives with
  | true => exact .inr rfl
  | false => exact .inl (h.slot.symm.trans hfree)

/-- A slot that is not taken again was kept, or is empty. -/
theorem GaveUp.slotStep {gives : Bool} {b b' : SchedBase} (h : GaveUp gives b b') :
    SlotStep gives b b' := by
  cases gives with
  | true => exact .emptied h.slot h.counter
  | false => exact .kept h.slot h.counter rfl

section Steps

variable (t : ℤ)

theorem fifo_slot_step (s : FIFOScheduler) :
    SlotStep (givesUp t (.fifo s)) s.toSchedBase (s.schedule t).toSchedBase := by
  have hslot : (s.toReadyBase.arrive t).running = s.running := rfl
  have hcount : (s.toReadyBase.arrive t).contextSwitches = s.contextSwitches := rfl
  unfold FIFOScheduler.schedule
  generalize s.toReadyBase.arrive t = a at hslot hcount ⊢
  dsimp only
  split
  · rename_i i rest hrun hready
    exact .started i rfl (congrArg (· + 1) hcount) (.inl (hslot.symm.trans hrun))
  · exact .kept hslot hcount rfl

theorem sjf_slot_step (s : SJFScheduler) :
    SlotStep (givesUp t (.sjf s)) s.toSchedBase (s.schedule t).toSchedBase := by
  have hslot : (s.toReadyBase.arrive t).running = s.running := rfl
  have hcount : (s.toReadyBase.arrive t).contextSwitches = s.contextSwitches := rfl
  unfold SJFScheduler.schedule
  generalize s.toReadyBase.arrive t = a at hslot hcount ⊢
  dsimp only
  split
  · exact .kept hslot hcount rfl
  · rename_i hrun
    split
    · exact .kept hslot hcount rfl
    · rename_i i rest _
      exact .started i rfl (congrArg (· + 1) hcount) (.inl (hslot.symm.trans hrun))

theorem stcf_slot_step (s : STCFScheduler) :
    SlotStep (givesUp t (.stcf s)) s.toSchedBase (s.schedule t).toSchedBase := by
  have hslot : (s.toReadyBase.arrive t).running = s.running := rfl
  have hcount : (s.toReadyBase.arrive t).contextSwitches = s.contextSwitches := rfl
  show SlotStep (shorterReady (s.toReadyBase.arrive t)) _ _
  unfold STCFScheduler.schedule
  generalize s.toReadyBase.arrive t = a at hslot hcount ⊢
  unfold shorterReady
  dsimp only
  cases sortByKey (fun i => (a.proc i).remainingTime) a.readyQueue with
  | nil => exact .kept hslot hcount rfl
  | cons shortest rest =>
    cases hrun : a.running with
    | none => exact .started shortest rfl (congrArg (· + 1) hcount) (.inl (hslot.symm.trans hrun))
    | some j =>
      dsimp only
      by_cases hlt : (a.proc shortest).remainingTime < (a.proc j).remainingTime
      · rw [if_pos hlt]
        exact .started shortest rfl (congrArg (· + 1) hcount) (.inr (decide_eq_true hlt))
      · rw [if_neg hlt]
        exact .kept hslot hcount (decide_eq_false hlt)

/-- The slice counter of round robin and lottery, after the arrivals. -/
theorem slice_gaveUp (s : SliceBase) :
    GaveUp (s.running.isSome && decide (s.currentSlice ≥ s.quantum)) s.toSchedBase
      (SliceBase.expire { s with toReadyBase := s.toReadyBase.arrive t }).toSchedBase := by
  unfold SliceBase.expire
  have hslot : (s.toReadyBase.arrive t).running = s.running := rfl
  cases hrun : s.running with
  | none =>
    simp only [hslot, hrun]
    exact ⟨rfl, by simp [hslot]⟩
  | some j =>
    simp only [hslot, hrun]
    split
    · rename_i hused
      exact ⟨rfl, by simp [hused]⟩
    · rename_i hleft
      exact ⟨rfl, by simp [hleft, hslot]⟩

theorem rr_slot_step (s : RRScheduler) :
    SlotStep (givesUp t (.rr s)) s.toSchedBase (s.schedule t).toSchedBase := by
  have hgave : GaveUp (givesUp t (.rr s)) s.toSchedBase
      (SliceBase.expire { s.toSliceBase with toReadyBase := s.toReadyBase.arrive t }).toSchedBase :=
    slice_gaveUp t s.toSliceBase
  unfold RRScheduler.schedule
  generalize SliceBase.expire _ = a at hgave ⊢
  dsimp only
  split
  · rename_i i rest hrun hready
    exact .started i rfl (congrArg (· + 1) hgave.counter) (hgave.free hrun)
  · exact hgave.slotStep

theorem lottery_slot_step (s : LotteryScheduler) :
    SlotStep (givesUp t (.lottery s)) s.toSchedBase (s.schedule t).toSchedBase := by
  have hgave : GaveUp (givesUp t (.lottery s)) s.toSchedBase
      (SliceBase.expire { s.toSliceBase with toReadyBase := s.toReadyBase.arrive t }).toSchedBase :=
    slice_gaveUp t s.toSliceBase
  unfold LotteryScheduler.schedule LotteryScheduler.draw
  generalize SliceBase.expire _ = a at hgave ⊢
  dsimp only
  split
  · rename_i hdraw
    exact .started _ rfl (congrArg (· + 1) hgave.counter)
      (hgave.free (Option.isNone_iff_eq_none.mp hdraw.1))
  · exact hgave.slotStep

theorem mlfq_gaveUp (s : MLFQScheduler) :
    GaveUp (givesUp t (.mlfq s)) s.toSchedBase ((s.boost t).arrive t).expire.toSchedBase := by
  have hslot : ((s.boost t).arrive t).running = s.running := boost_running t s
  have hcount : ((s.boost t).arrive t).contextSwitches = s.contextSwitches :=
    boost_contextSwitches t s
  show GaveUp (levelUsedUp ((s.boost t).arrive t)) _ _
  generalize (s.boost t).arrive t = a at hslot hcount ⊢
  unfold levelUsedUp MLFQScheduler.expire
  cases hrun : a.running with
  | none => exact ⟨hcount, hslot⟩
  | some j =>
    dsimp only
    by_cases hallot : (a.proc j).allotmentUsed ≥
        (a.configs.getD (a.proc j).currentQueue ⟨0, 0, 0⟩).allotment
    · rw [if_pos hallot, decide_eq_true hallot]
      exact ⟨hcount, rfl⟩
    · rw [if_neg hallot, decide_eq_false hallot, Bool.false_or]
      by_cases hslice : a.currentSlice ≥
          (a.configs.getD (a.proc j).currentQueue ⟨0, 0, 0⟩).quantum
      · rw [if_pos hslice, decide_eq_true hslice]
        exact ⟨hcount, rfl⟩
      · rw [if_neg hslice, decide_eq_false hslice]
        exact ⟨hcount, hslot⟩

theorem mlfq_slot_step (s : MLFQScheduler) :
    SlotStep (givesUp t (.mlfq s)) s.toSchedBase (s.schedule t).toSchedBase := by
  have hgave := mlfq_gaveUp t s
  unfold MLFQScheduler.schedule MLFQScheduler.pick
  generalize ((s.boost t).arrive t).expire = a at hgave ⊢
  split
  · exact hgave.slotStep
  · rename_i hrun
    split
    · exact hgave.slotStep
    · exact .started _ rfl (congrArg (· + 1) hgave.counter) (hgave.free hrun)

/-- **One tick**, whatever the discipline. -/
theorem slot_step (s : Scheduler) : SlotStep (givesUp t s) s.base (s.schedule t).base := by
  cases s with
  | fifo s => exact fifo_slot_step t s
  | sjf s => exact sjf_slot_step t s
  | stcf s => exact stcf_slot_step t s
  | rr s => exact rr_slot_step t s
  | mlfq s => exact mlfq_slot_step t s
  | lottery s => exact lottery_slot_step t s

theorem execute_contextSwitches (label : Process → String) (b : SchedBase) :
    (b.execute label t).contextSwitches = b.contextSwitches := by
  unfold SchedBase.execute
  cases b.running with
  | none => rfl
  | some i =>
    dsimp only
    split <;> rfl

theorem tick_contextSwitches (s : Scheduler) :
    (s.tick t).base.contextSwitches = (s.schedule t).base.contextSwitches := by
  cases s with
  | mlfq s =>
    show (s.tick t).contextSwitches = (s.schedule t).contextSwitches
    unfold MLFQScheduler.tick
    dsimp only
    split
    · exact execute_contextSwitches t _ _
    · exact execute_contextSwitches t _ _
  | _ => exact execute_contextSwitches t _ _

end Steps

variable {h : ℕ → Option ℕ}

/-- The process that STCF preempts is not the one that it dispatches, which was ready. -/
theorem stcf_changes_slot {W : Workload} {n : ℕ} {s : STCFScheduler}
    (hpre : SchedInv W h n n (Slot h n n) (schedView (.stcf s)))
    (hgives : givesUp n (.stcf s) = true) : (s.schedule n).running ≠ s.running := by
  have hmid := hpre.arrived (ReadyBase.arrived n s.toReadyBase)
  have hslot : (s.toReadyBase.arrive n).running = s.running := rfl
  have hgives : shorterReady (s.toReadyBase.arrive n) = true := hgives
  rw [← hslot]
  unfold STCFScheduler.schedule
  generalize s.toReadyBase.arrive n = a at hmid hgives ⊢
  unfold shorterReady at hgives
  have hperm := perm_sortByKey (fun i => (a.proc i).remainingTime) a.readyQueue
  dsimp only
  split at hgives
  · rename_i shortest rest j hsort hrun
    rw [hsort] at hperm
    have hready : shortest ∈ a.readyQueue := hperm.mem_iff.mp List.mem_cons_self
    simp only [hsort, hrun]
    rw [if_pos (of_decide_eq_true hgives)]
    intro heq
    cases (Option.some.inj heq : shortest = j)
    exact not_ready_of_running hmid.nodup hrun hready
  · cases hgives

/-! ## Runs -/

/-- Tick `u` executes a process that the tick before it did not execute. -/
def Switches (h : ℕ → Option ℕ) (u : ℕ) : Prop := ∃ i, h u = some i ∧ ∀ v, v + 1 = u → h v ≠ some i

theorem switches_zero : Switches h 0 ↔ h 0 ≠ none := by
  rw [Option.ne_none_iff_exists']
  simp [Switches]

theorem switches_succ {u : ℕ} : Switches h (u + 1) ↔ h (u + 1) ≠ none ∧ h u ≠ h (u + 1) := by
  rw [Option.ne_none_iff_exists']
  constructor
  · rintro ⟨i, hi, hv⟩
    exact ⟨⟨i, hi⟩, hi ▸ hv u rfl⟩
  · rintro ⟨⟨i, hi⟩, hne⟩
    refine ⟨i, hi, fun v hv => ?_⟩
    obtain rfl : v = u := by omega
    rwa [hi] at hne

instance (h : ℕ → Option ℕ) : DecidablePred (Switches h)
  | 0 => decidable_of_iff _ switches_zero.symm
  | _ + 1 => decidable_of_iff _ switches_succ.symm

/-- The running process gives up the slot in tick `u` and is dispatched again in the same tick. -/
def Redispatched (s : Scheduler) (u : ℕ) : Prop :=
  givesUp u (s.run u) = true ∧ s.executedAt u ≠ none ∧ s.executedAt u = (s.run u).base.running

instance (s : Scheduler) : DecidablePred (Redispatched s) := fun u => by
  unfold Redispatched
  infer_instance

section Run

variable (k : SchedulerKind) (W : Workload)

/-- The slot is empty at first, and then holds a process that the last tick executed. -/
theorem executed_of_running {n i : ℕ} (hrun : ((k.load W.procs).run n).base.running = some i) :
    ∃ m, n = m + 1 ∧ (k.load W.procs).executedAt m = some i := by
  cases n with
  | zero =>
    have hload : (k.load W.procs).base.running = none := by rw [(load_spec k W.procs).1]
    exact absurd (hload.symm.trans hrun) (by simp)
  | succ m => exact ⟨m, rfl, executedAt_of_running hrun⟩

/-- A process that is executed in two ticks in a row stays in the slot between them. -/
theorem running_of_executed_twice {n i : ℕ} (hran : (k.load W.procs).executedAt n = some i)
    (hnext : (k.load W.procs).executedAt (n + 1) = some i) :
    ((k.load W.procs).run (n + 1)).base.running = some i := by
  refine running_of_executed k W hran fun hdone => ?_
  have hi : i < W.procs.length := Finset.mem_range.mp ((feasible_run k W).mem hran)
  have hleft := (completed_iff_left k W (n + 1) hi).mp hdone
  have hmore := (feasible_run k W).unfinished hnext
  unfold JobSet.left at hleft
  omega

/-- **Switches are seen in the slot**: a tick switches to the process that it executes unless it
finds this process in the slot. -/
theorem switches_iff_slot {n i : ℕ} (hran : (k.load W.procs).executedAt n = some i) :
    Switches (k.load W.procs).executedAt n ↔ ((k.load W.procs).run n).base.running ≠ some i := by
  constructor
  · rintro ⟨j, hj, hbefore⟩ hrun
    obtain rfl : i = j := Option.some.inj (hran.symm.trans hj)
    obtain ⟨m, rfl, hm⟩ := executed_of_running k W hrun
    exact hbefore m rfl hm
  · intro hslot
    refine ⟨i, hran, ?_⟩
    rintro m rfl hm
    exact hslot (running_of_executed_twice k W hm hran)

theorem not_switches_of_idle {n : ℕ} (hidle : h n = none) : ¬ Switches h n := by
  rintro ⟨i, hi, -⟩
  rw [hidle] at hi
  cases hi

/-- **One tick of the counter.** -/
theorem contextSwitches_step (n : ℕ) :
    ((k.load W.procs).run (n + 1)).base.contextSwitches =
      ((k.load W.procs).run n).base.contextSwitches +
        (if Switches (k.load W.procs).executedAt n then 1 else 0) +
        if Redispatched (k.load W.procs) n then 1 else 0 := by
  have htick : ((k.load W.procs).run (n + 1)).base.contextSwitches =
      (((k.load W.procs).run n).schedule n).base.contextSwitches := tick_contextSwitches n _
  rw [htick]
  cases slot_step n ((k.load W.procs).run n) with
  | kept slot counter stays =>
    have hre : ¬ Redispatched (k.load W.procs) n := fun h => by
      rw [h.1] at stays
      cases stays
    have hsw : ¬ Switches (k.load W.procs).executedAt n := by
      intro hsw
      have ⟨i, hi, _⟩ := hsw
      exact (switches_iff_slot k W hi).mp hsw (slot.symm.trans hi)
    rw [counter, if_neg hsw, if_neg hre]
    omega
  | emptied slot counter =>
    have hre : ¬ Redispatched (k.load W.procs) n := fun h => h.2.1 slot
    rw [counter, if_neg (not_switches_of_idle slot), if_neg hre]
    omega
  | started i slot counter free =>
    have hran : (k.load W.procs).executedAt n = some i := slot
    have hsw := switches_iff_slot k W hran
    by_cases hrun : ((k.load W.procs).run n).base.running = some i
    · -- the process gives up the slot and gets it back
      have hgives := free.resolve_left (by simp [hrun])
      have hre : Redispatched (k.load W.procs) n :=
        ⟨hgives, by simp [hran], hran.trans hrun.symm⟩
      rw [counter, if_neg (not_not.mpr hrun ∘ hsw.mp), if_pos hre]
      omega
    · have hre : ¬ Redispatched (k.load W.procs) n := fun h =>
        hrun (h.2.2.symm.trans hran)
      rw [counter, if_pos (hsw.mpr hrun), if_neg hre]
      omega

/-- **The counter**: the switches of the execution log, and the processes that were dispatched
again. -/
theorem contextSwitches_eq (n : ℕ) :
    ((k.load W.procs).run n).base.contextSwitches =
      Nat.count (Switches (k.load W.procs).executedAt) n +
        Nat.count (Redispatched (k.load W.procs)) n := by
  induction n with
  | zero =>
    show (k.load W.procs).base.contextSwitches = _
    rw [(load_spec k W.procs).1]
    simp
  | succ n ih =>
    rw [contextSwitches_step, ih, Nat.count_succ, Nat.count_succ]
    push_cast
    omega

/-- Without a slice a process is not dispatched again. -/
theorem not_redispatched (hk : k = .fifo ∨ k = .sjf ∨ k = .stcf) (n : ℕ) :
    ¬ Redispatched (k.load W.procs) n := by
  rintro ⟨hgives, -, hsame⟩
  rcases hk with rfl | rfl | rfl
  · obtain ⟨s, hs⟩ := run_discipline (C := .fifo) (k := .fifo) ⟨_, rfl⟩ (fun _ _ => ⟨_, rfl⟩)
      (fun _ _ => ⟨_, rfl⟩) W.procs n
    rw [hs] at hgives
    cases hgives
  · obtain ⟨s, hs⟩ := run_discipline (C := .sjf) (k := .sjf) ⟨_, rfl⟩ (fun _ _ => ⟨_, rfl⟩)
      (fun _ _ => ⟨_, rfl⟩) W.procs n
    rw [hs] at hgives
    cases hgives
  · obtain ⟨s, hs⟩ := run_discipline (C := .stcf) (k := .stcf) ⟨_, rfl⟩ (fun _ _ => ⟨_, rfl⟩)
      (fun _ _ => ⟨_, rfl⟩) W.procs n
    have hpre := (schedInv_run .stcf W n).1
    rw [hs] at hgives hpre
    rw [Scheduler.executedAt, hs] at hsame
    exact stcf_changes_slot hpre hgives hsame

end Run

/-- **The context-switch counter** after tick `t` is the number of ticks `u ≤ t` that execute
another process than the tick before, plus the number of ticks `u ≤ t` at which a process gives up
the slot and is dispatched again.  It counts the switches exactly when there is no such tick; FIFO,
SJF and STCF have none.
SOURCE: pkg/cpu/sched_rr.go:60-81, pkg/cpu/sched_lottery.go:61-100, pkg/cpu/sched_mlfq.go:124-164 -/
theorem contextSwitches_counts (k : SchedulerKind) (W : Workload) (t : ℕ) :
    let s := k.load W.procs
    let counter := (s.run (t + 1)).base.contextSwitches
    let switches := Nat.count (Switches s.executedAt) (t + 1)
    counter = switches + Nat.count (Redispatched s) (t + 1) ∧
      (counter = switches ↔ ∀ u ≤ t, ¬ Redispatched s u) ∧
      (k = .fifo ∨ k = .sjf ∨ k = .stcf → counter = switches) := by
  intro s counter switches
  have heq : counter = switches + Nat.count (Redispatched s) (t + 1) :=
    contextSwitches_eq k W (t + 1)
  have hiff : counter = switches ↔ ∀ u ≤ t, ¬ Redispatched s u := by
    have hzero : counter = switches ↔ Nat.count (Redispatched s) (t + 1) = 0 := by omega
    rw [hzero, Nat.count_eq_card_filter_range, Finset.card_eq_zero, Finset.filter_eq_empty_iff]
    simp only [Finset.mem_range, Nat.lt_succ_iff]
  refine ⟨heq, hiff, fun hk => hiff.mpr fun u _ => not_redispatched k W hk u⟩

/-- One process that runs for longer than the quantum. -/
def aloneLong : Workload where
  procs := [newProcess 1 "P1" 0 3]
  fresh := by simp [Process.clone, newProcess]
  arrival_nonneg := by simp [newProcess]
  burst_pos := by simp [newProcess]

/-- Round robin executes the process in the ticks `0`, `1` and `2`, and counts two switches. -/
theorem contextSwitches_aloneLong :
    let s := (SchedulerKind.rr 2).load aloneLong.procs
    (s.run 3).base.contextSwitches = 2 ∧ Nat.count (Switches s.executedAt) 3 = 1 := by
  refine ⟨by decide, by decide⟩

end OsSimulator.Analysis
