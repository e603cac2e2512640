import OsSimulator.Analysis.KernelProcesses
import OsSimulator.Analysis.SchedTimings

/-!
# Idle reports of the kernel

`Step` reports an idle CPU when `Tick` returns no process, and `Tick` returns the process that is
left in the slot at its end.  A process that completes has left it, so the last tick of a burst is
reported as idle although the Gantt chart shows the process.

* `step_idle_iff`: the report and the chart agree on a tick exactly when the executed process does
  not complete in it, processes that are called like the idle segment apart.
* `step_idle_lastTick`: a burst of one tick.
-/

set_option autoImplicit false

namespace OsSimulator.Analysis

open Model Interface

/-- Whether `Tick` leaves the slot empty. -/
theorem tick_running_none_iff {t : ℤ} {s : Scheduler} (hl : LevelsInRange s)
    (hs : InRange (schedView s)) :
    (s.tick t).base.running = none ↔ ∀ i, (s.schedule t).base.running = some i →
      ((s.schedule t).base.proc i).remainingTime = 1 := by
  have hexec := executed_tick t s (inRange_schedule hl hs)
  cases hexec with
  | idle free hr =>
    have hfree : (s.schedule t).base.running = none := free
    have hfree' : (s.tick t).base.running = none := hr.running_eq.trans free
    simp [hfree, hfree']
  | work i slot slot' more updates ready_eq completed_eq =>
    have hslot : (s.schedule t).base.running = some i := slot
    have hslot' : (s.tick t).base.running = some i := slot'
    have hmore : ((s.schedule t).base.proc i).remainingTime - 1 ≠ 0 := more
    simp only [hslot, hslot', Option.some.injEq, reduceCtorEq, forall_eq', false_iff]
    omega
  | finish i slot free last updates ready_eq completed_eq =>
    have hslot : (s.schedule t).base.running = some i := slot
    have hfree : (s.tick t).base.running = none := free
    have hlast : ((s.schedule t).base.proc i).remainingTime - 1 = 0 := last
    simp only [hslot, hfree, Option.some.injEq, forall_eq', true_iff]
    omega

/-- The report of an idle CPU. -/
def idleMessage (k : OSKernel) : String :=
  s!"[Tick {k.currentTick + 1}] CPU Idle (No runnable processes)"

/-- Texts that start alike and differ in a later letter. -/
theorem append_append_ne {u v a b x : String} (i : ℕ) (hi : i < a.toList.length)
    (hne : a.toList[i]? ≠ b.toList[i]?) : u ++ (v ++ (a ++ x)) ≠ u ++ (v ++ b) := by
  intro heq
  have hlist := congrArg String.toList heq
  simp only [String.toList_append, List.append_cancel_left_eq] at hlist
  rw [← hlist, List.getElem?_append_left hi] at hne
  exact hne rfl

theorem step_message_iff (k : OSKernel) :
    k.step.1 = idleMessage k ↔ (k.scheduler.tickResult (k.currentTick + 1)).1 = none := by
  unfold OSKernel.step idleMessage
  dsimp only
  cases (k.scheduler.tickResult (k.currentTick + 1)).1 with
  | none => exact ⟨fun _ => rfl, fun _ => rfl⟩
  | some i =>
    dsimp only [Option.map_some]
    -- after the tick the idle report and the two others have the letters CP, Co and Ex
    split <;> simp only [String.append_assoc, reduceCtorEq, iff_false]
    · exact append_append_ne 3 (by decide) (by decide)
    · exact append_append_ne 2 (by decide) (by decide)

section Idle

variable {allowed : OSKernel → KernelAction → Prop} {kind : Option SchedulerKind} {k : OSKernel}

/-- **Idle reports.**  A step appends one segment to the chart.  Its report of an idle CPU agrees
with that segment exactly when the process that the tick executes, if any, completes in it just in
case its label is the one of an idle tick.
SOURCE: pkg/kernel/os_kernel.go:56-87, pkg/cpu/scheduler.go:9-16 -/
theorem step_idle_iff (hk : KernelReachable allowed kind k) :
    let chosen := k.scheduler.schedule (k.currentTick + 1)
    ∃ segment, k.step.2.scheduler.base.gantt = k.scheduler.base.gantt ++ [segment] ∧
      segment.startTime = k.currentTick + 1 ∧
      ((k.step.1 = idleMessage k ↔ segment.entityID = "IDLE") ↔
        ∀ i, chosen.base.running = some i →
          ((chosen.base.proc i).remainingTime = 1 ↔
            ganttLabel k.scheduler (chosen.base.proc i) = "IDLE")) := by
  intro chosen
  have hok := kernelOk_of_reachable hk
  refine ⟨ganttSegment (ganttLabel k.scheduler) (k.currentTick + 1) chosen.base, ?_, ?_, ?_⟩
  · rw [step_scheduler]
    exact tick_gantt (k.currentTick + 1) k.scheduler
  · unfold ganttSegment
    cases chosen.base.running <;> rfl
  · have hslot := tick_running_none_iff (t := k.currentTick + 1) hok.levels hok.inRange
    rw [step_message_iff]
    unfold Scheduler.tickResult ganttSegment
    rw [hslot]
    cases hrun : chosen.base.running with
    | none => simp [chosen]
    | some i => simp only [chosen, Option.some.injEq, forall_eq']

end Idle

/-- A FIFO kernel and a process that arrives in its first tick. -/
def kernelAdding (burst : ℤ) : OSKernel :=
  (newOSKernel (some SchedulerKind.fifo.new)).act (.addProcess 2 "P2" 1 burst)

theorem kernelAdding_reachable (burst : ℤ) :
    KernelReachable (fun _ _ => True) (some .fifo) (kernelAdding burst) :=
  .act .new trivial

/-- The first tick of a longer burst is not reported as idle. -/
theorem step_idle_iff_firstTick :
    ∃ segment, (kernelAdding 2).step.2.scheduler.base.gantt = [] ++ [segment] ∧
      segment.startTime = 1 ∧
      ((kernelAdding 2).step.1 = idleMessage (kernelAdding 2) ↔ segment.entityID = "IDLE") := by
  obtain ⟨segment, hgantt, hstart, hiff⟩ := step_idle_iff (kernelAdding_reachable 2)
  refine ⟨segment, hgantt, hstart, hiff.mpr ?_⟩
  intro i hi
  obtain rfl : 1 = i := Option.some.inj hi
  decide

/-- The only tick of a burst: the chart shows the process, and the kernel reports an idle CPU. -/
theorem step_idle_lastTick :
    KernelReachable (fun _ _ => True) (some .fifo) (kernelAdding 1) ∧
      (kernelAdding 1).step.1 = "[Tick 1] CPU Idle (No runnable processes)" ∧
      (kernelAdding 1).step.2.scheduler.base.gantt = [⟨"P2", 1, 2⟩] :=
  ⟨kernelAdding_reachable 1, by decide, by decide⟩

end OsSimulator.Analysis
