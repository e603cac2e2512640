import Mathlib.Data.Int.Notation
import Mathlib.Data.Nat.Notation
import Mathlib.Data.List.Basic

/-!
# Processes and the state shared by the CPU schedulers (`pkg/cpu`)

The source keeps every process behind a pointer that the process list, the ready
queues, the running slot and the list of completed processes share.  Here a process
is referred to by its position in `allProcesses`, the order of the `AddProcess`
calls, and the queues hold these positions.

The fields of a process that no scheduler reads or writes (registers, memory bounds,
threads, I/O attributes, priority) are left out.  Times are unbounded integers: they
grow by at most one with every tick.

* `ProcessState`, `Process`, `newProcess`, `Process.clone`: pkg/cpu/process.go:8-108
* `Process.arrives`, `enter`, `preempt`, `dispatch`, `execute`, `terminate`: the updates
  of one process inside the `Tick` functions, e.g. pkg/cpu/sched_fifo.go:41-86
* `GanttSegment`: pkg/visualizer/gantt.go:9-14
-/

set_option autoImplicit false

namespace OsSimulator.Model

inductive ProcessState where
  | new
  | ready
  | running
  | blocked
  | terminated
deriving DecidableEq, Repr

structure Process where
  pid : ℤ
  name : String
  state : ProcessState
  arrivalTime : ℤ
  burstTime : ℤ
  remainingTime : ℤ
  startTime : ℤ
  finishTime : ℤ
  waitingTime : ℤ
  turnaround : ℤ
  responseTime : ℤ
  allotmentUsed : ℤ
  currentQueue : ℕ
  tickets : ℤ
deriving DecidableEq, Repr

def newProcess (pid : ℤ) (name : String) (arrivalTime burstTime : ℤ) : Process where
  pid := pid
  name := name
  state := .new
  arrivalTime := arrivalTime
  burstTime := burstTime
  remainingTime := burstTime
  startTime := -1
  finishTime := -1
  waitingTime := 0
  turnaround := 0
  responseTime := 0
  allotmentUsed := 0
  currentQueue := 0
  tickets := 10

instance : Inhabited Process := ⟨newProcess 0 "" 0 0⟩

namespace Process

/-- `Clone`: the same process as before its first tick.
SOURCE: pkg/cpu/process.go:94-108 -/
def clone (p : Process) : Process :=
  { p with
    state := .new
    remainingTime := p.burstTime
    startTime := -1
    finishTime := -1
    waitingTime := 0
    turnaround := 0
    responseTime := 0
    allotmentUsed := 0
    currentQueue := 0 }

def arrives (t : ℤ) (p : Process) : Bool :=
  p.arrivalTime == t && p.state == .new

/-- The arrival loop's update of one process. -/
def enter (t : ℤ) (p : Process) : Process :=
  if p.arrives t then { p with state := .ready } else p

def preempt (p : Process) : Process := { p with state := .ready }

/-- The chosen process starts running; its first dispatch fixes start and response time. -/
def dispatch (t : ℤ) (p : Process) : Process :=
  if p.startTime = -1 then
    { p with state := .running, startTime := t, responseTime := t - p.arrivalTime }
  else { p with state := .running }

def execute (p : Process) : Process := { p with remainingTime := p.remainingTime - 1 }

def terminate (t : ℤ) (p : Process) : Process :=
  { p with state := .terminated, finishTime := t + 1, turnaround := t + 1 - p.arrivalTime }

end Process

/-- One segment of the Gantt chart; no scheduler sets the optional colour. -/
structure GanttSegment where
  entityID : String
  startTime : ℤ
  endTime : ℤ
deriving DecidableEq, Repr

/-- The fields that all six schedulers have. -/
structure SchedBase where
  allProcesses : List Process := []
  running : Option ℕ := none
  completed : List ℕ := []
  gantt : List GanttSegment := []
  contextSwitches : ℤ := 0
  busyTime : ℤ := 0
  totalTime : ℤ := 0

/-- The positions of the processes that the arrival loop of tick `t` makes ready. -/
def arrivals (t : ℤ) (procs : List Process) : List ℕ :=
  (List.range procs.length).filter fun i => (procs.getD i default).arrives t

/-- The loop `for _, p := range queue { p.WaitingTime++ }`. -/
def addWaiting (queue : List ℕ) (procs : List Process) : List Process :=
  procs.mapIdx fun i p => { p with waitingTime := p.waitingTime + queue.count i }

namespace SchedBase

def proc (b : SchedBase) (i : ℕ) : Process := b.allProcesses.getD i default

def dispatch (t : ℤ) (i : ℕ) (b : SchedBase) : SchedBase :=
  { b with
    allProcesses := b.allProcesses.modify i (Process.dispatch t)
    running := some i
    contextSwitches := b.contextSwitches + 1 }

/-- The second half of every `Tick`: the process in the running slot executes for one
tick and leaves the slot if it is done; an empty slot is an idle tick.  `label` is the
Gantt label of the process.
SOURCE: pkg/cpu/sched_fifo.go:67-92 -/
def execute (label : Process → String) (t : ℤ) (b : SchedBase) : SchedBase :=
  match b.running with
  | some i =>
    let b := { b with
      busyTime := b.busyTime + 1
      allProcesses := b.allProcesses.modify i Process.execute
      gantt := b.gantt ++ [⟨label (b.proc i), t, t + 1⟩] }
    if (b.proc i).remainingTime = 0 then
      { b with
        allProcesses := b.allProcesses.modify i (Process.terminate t)
        completed := b.completed ++ [i]
        running := none }
    else b
  | none => { b with gantt := b.gantt ++ [⟨"IDLE", t, t + 1⟩] }

def allDone (b : SchedBase) : Bool :=
  b.completed.length == b.allProcesses.length && 0 < b.allProcesses.length

end SchedBase

end OsSimulator.Model
