import OsSimulator.Interface.TickPhases
import OsSimulator.Library.RoundRobin

/-!
# Round robin as a line

The ready queue, the running slot and the slice of the round-robin scheduler form a line in the
sense of `Library.RoundRobin`.  The first half of a tick is the `turn` of the line and the second
half is `serve`: `lineView_schedule` and `lineView_tick`.  What else the scheduler keeps (the
processes with their times) only decides who arrives and who is done.
-/

set_option autoImplicit false

namespace OsSimulator.Interface

open Model Library

def lineView (s : SliceBase) : Line ℕ := ⟨s.readyQueue, s.running, s.currentSlice⟩

theorem lineView_expire (s : SliceBase) : lineView s.expire = (lineView s).expire s.quantum := by
  unfold SliceBase.expire Line.expire lineView
  cases hrun : s.running with
  | none => simp [hrun]
  | some j =>
    by_cases hslice : s.quantum ≤ s.currentSlice
    · simp [hslice]
    · simp [hslice, hrun]

theorem expire_quantum (s : SliceBase) : s.expire.quantum = s.quantum := by
  unfold SliceBase.expire
  split
  · split <;> rfl
  · rfl

/-- **The first half of a tick** is a turn of the line. -/
theorem lineView_schedule (t : ℤ) (s : RRScheduler) :
    lineView (s.schedule t).toSliceBase =
      (lineView s.toSliceBase).turn s.quantum (arrivals t s.allProcesses) := by
  have hexpire : lineView (SliceBase.expire
      { s.toSliceBase with toReadyBase := s.toReadyBase.arrive t }) =
        ((lineView s.toSliceBase).join (arrivals t s.allProcesses)).expire s.quantum :=
    lineView_expire _
  unfold RRScheduler.schedule Line.turn
  rw [← hexpire]
  generalize SliceBase.expire _ = a
  unfold Line.call lineView
  dsimp only
  cases hrun : a.running with
  | some j => simp [hrun]
  | none =>
    cases hready : a.readyQueue with
    | nil => simp [hrun, hready]
    | cons i rest => simp [SchedBase.dispatch]

theorem schedule_quantum (t : ℤ) (s : RRScheduler) : (s.schedule t).quantum = s.quantum := by
  unfold RRScheduler.schedule
  dsimp only
  split <;> exact expire_quantum _

/-- **The second half of a tick** is a tick of service. -/
theorem lineView_tick (t : ℤ) (s : RRScheduler) :
    lineView (s.tick t).toSliceBase =
      (lineView (s.schedule t).toSliceBase).serve (s.tick t).running.isNone := by
  unfold RRScheduler.tick SliceBase.execute
  generalize (s.schedule t).toSliceBase = a
  unfold Line.serve lineView
  dsimp only
  cases hrun : a.running with
  | none => simp [SchedBase.execute, hrun]
  | some i =>
    rcases execute_running Process.name t a.toSchedBase with hdone | hmore
    · simp [hdone]
    · rw [hrun] at hmore
      simp [hmore]

end OsSimulator.Interface
