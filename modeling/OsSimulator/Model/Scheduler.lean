import Mathlib.Algebra.Group.Nat.Defs
import OsSimulator.Model.Process
import Mathlib.Data.List.Sort

/-!
# The six CPU schedulers (`pkg/cpu/sched_*.go`)

Every `Tick` is cut into `schedule` (arrivals, waiting times, preemption and the
choice of the process to run) and the execution of the chosen process.  The process
in the running slot of `schedule t s` is therefore the one that tick `t` executes.

All schedulers but MLFQ keep one ready queue (`ReadyBase`) and share the text of the
arrival and waiting loops (`ReadyBase.arrive`).  Round robin and lottery also share
the time slice and its expiry (`SliceBase`).
-/

set_option autoImplicit false

namespace OsSimulator.Model

/-- The fields of a scheduler with one ready queue. -/
structure ReadyBase extends SchedBase where
  readyQueue : List ℕ := []

/-- The arrival loop and the waiting loop.
SOURCE: pkg/cpu/sched_fifo.go:38-51 -/
def ReadyBase.arrive (t : ℤ) (s : ReadyBase) : ReadyBase :=
  let readyQueue := s.readyQueue ++ arrivals t s.allProcesses
  { s with
    totalTime := t + 1
    allProcesses := addWaiting readyQueue (s.allProcesses.map (Process.enter t))
    readyQueue }

/-! ## FIFO (`sched_fifo.go`) -/

structure FIFOScheduler extends ReadyBase

namespace FIFOScheduler

def schedule (t : ℤ) (s : FIFOScheduler) : FIFOScheduler :=
  let s := s.toReadyBase.arrive t
  match s.running, s.readyQueue with
  | none, i :: rest => ⟨{ s with toSchedBase := s.toSchedBase.dispatch t i, readyQueue := rest }⟩
  | _, _ => ⟨s⟩

def tick (t : ℤ) (s : FIFOScheduler) : FIFOScheduler :=
  let s := s.schedule t
  { s with toSchedBase := s.toSchedBase.execute Process.name t }

end FIFOScheduler

/-! ## SJF and STCF (`sched_sjf.go`) -/

/-- `sort.SliceStable` by a key of the processes. -/
def sortByKey (key : ℕ → ℤ) (queue : List ℕ) : List ℕ :=
  queue.insertionSort fun i j => key i ≤ key j

structure SJFScheduler extends ReadyBase

namespace SJFScheduler

def schedule (t : ℤ) (s : SJFScheduler) : SJFScheduler :=
  let s := s.toReadyBase.arrive t
  match s.running with
  | some _ => ⟨s⟩
  | none =>
    match sortByKey (fun i => (s.proc i).burstTime) s.readyQueue with
    | [] => ⟨s⟩
    | i :: rest => ⟨{ s with toSchedBase := s.toSchedBase.dispatch t i, readyQueue := rest }⟩

def tick (t : ℤ) (s : SJFScheduler) : SJFScheduler :=
  let s := s.schedule t
  { s with toSchedBase := s.toSchedBase.execute Process.name t }

end SJFScheduler

structure STCFScheduler extends ReadyBase

namespace STCFScheduler

/-- SOURCE: pkg/cpu/sched_sjf.go:139-177 -/
def schedule (t : ℤ) (s : STCFScheduler) : STCFScheduler :=
  let s := s.toReadyBase.arrive t
  match sortByKey (fun i => (s.proc i).remainingTime) s.readyQueue with
  | [] => ⟨s⟩
  | shortest :: rest =>
    match s.running with
    | none => ⟨{ s with toSchedBase := s.toSchedBase.dispatch t shortest, readyQueue := rest }⟩
    | some j =>
      if (s.proc shortest).remainingTime < (s.proc j).remainingTime then
        -- the running process goes to the back of the sorted queue
        let b := { s.toSchedBase with allProcesses := s.allProcesses.modify j Process.preempt }
        ⟨{ s with toSchedBase := b.dispatch t shortest, readyQueue := rest ++ [j] }⟩
      else ⟨{ s with readyQueue := shortest :: rest }⟩

def tick (t : ℤ) (s : STCFScheduler) : STCFScheduler :=
  let s := s.schedule t
  { s with toSchedBase := s.toSchedBase.execute Process.name t }

end STCFScheduler

/-! ## Round robin (`sched_rr.go`) -/

/-- The fields of a scheduler with a time slice. -/
structure SliceBase extends ReadyBase where
  quantum : ℤ
  currentSlice : ℤ := 0

namespace SliceBase

/-- The running process leaves the slot when its quantum is used up.
SOURCE: pkg/cpu/sched_rr.go:60-66, pkg/cpu/sched_lottery.go:61-66 -/
def expire (s : SliceBase) : SliceBase :=
  match s.running with
  | some j =>
    if s.currentSlice ≥ s.quantum then
      { s with
        allProcesses := s.allProcesses.modify j Process.preempt
        readyQueue := s.readyQueue ++ [j]
        running := none
        currentSlice := 0 }
    else s
  | none => s

/-- The slice counts the ticks of the running process and is reset when it completes. -/
def execute (t : ℤ) (s : SliceBase) : SliceBase :=
  let b := s.toSchedBase.execute Process.name t
  { s with
    toSchedBase := b
    currentSlice := if s.running.isNone then s.currentSlice
      else if b.running.isNone then 0 else s.currentSlice + 1 }

end SliceBase

structure RRScheduler extends SliceBase

def newRRScheduler (quantum : ℤ) : RRScheduler :=
  ⟨{ quantum := if quantum ≤ 0 then 2 else quantum }⟩

namespace RRScheduler

/-- SOURCE: pkg/cpu/sched_rr.go:44-81 -/
def schedule (t : ℤ) (s : RRScheduler) : RRScheduler :=
  let s := { s.toSliceBase with toReadyBase := s.toReadyBase.arrive t }.expire
  match s.running, s.readyQueue with
  | none, i :: rest =>
    ⟨{ s with toSchedBase := s.toSchedBase.dispatch t i, readyQueue := rest, currentSlice := 0 }⟩
  | _, _ => ⟨s⟩

def tick (t : ℤ) (s : RRScheduler) : RRScheduler :=
  ⟨(s.schedule t).toSliceBase.execute t⟩

end RRScheduler

/-! ## Lottery (`sched_lottery.go`) -/

/-- `rand.Rand` as the stream of its draws: `intn k n` is the value of the `k`-th draw
when it is `Intn(n)`, which is documented to lie in `[0, n)`. -/
structure Rand where
  intn : ℕ → ℤ → ℤ
  intn_mem : ∀ k n, 0 < n → 0 ≤ intn k n ∧ intn k n < n

structure LotteryScheduler extends SliceBase where
  rng : Rand
  draws : ℕ := 0

def newLotteryScheduler (quantum : ℤ) (rng : Rand) : LotteryScheduler :=
  { quantum := if quantum ≤ 0 then 2 else quantum, rng := rng }

/-- A sum of Go `int`s wraps around at 64 bits. -/
def wrap64 (x : ℤ) : ℤ := x.bmod (2 ^ 64)

/-- The sum of the tickets in the ready queue.
SOURCE: pkg/cpu/sched_lottery.go:71-74 -/
def totalTickets (tickets : ℕ → ℤ) (queue : List ℕ) : ℤ :=
  queue.foldl (fun total i => wrap64 (total + tickets i)) 0

/-- The loop that looks for the holder of the winning ticket: `i` is the position of
the queue's head and `ticketSum` the tickets before it.  When the loop ends without a
`break` the winner is position `0`.
SOURCE: pkg/cpu/sched_lottery.go:81-87 -/
def winnerIdx (tickets : ℕ → ℤ) (winningTicket : ℤ) : List ℕ → ℤ → ℕ → ℕ
  | [], _, _ => 0
  | p :: queue, ticketSum, i =>
    let ticketSum := wrap64 (ticketSum + tickets p)
    if ticketSum > winningTicket then i
    else winnerIdx tickets winningTicket queue ticketSum (i + 1)

namespace LotteryScheduler

/-- SOURCE: pkg/cpu/sched_lottery.go:68-100 -/
def draw (t : ℤ) (s : LotteryScheduler) : LotteryScheduler :=
  let tickets := fun i => (s.proc i).tickets
  let total := totalTickets tickets s.readyQueue
  if s.running.isNone ∧ 0 < s.readyQueue.length ∧ total > 0 then
    let winner := winnerIdx tickets (s.rng.intn s.draws total) s.readyQueue 0 0
    { s with
      toSchedBase := s.toSchedBase.dispatch t (s.readyQueue.getD winner 0)
      readyQueue := s.readyQueue.eraseIdx winner
      currentSlice := 0
      draws := s.draws + 1 }
  else s

def schedule (t : ℤ) (s : LotteryScheduler) : LotteryScheduler :=
  let slice := { s.toSliceBase with toReadyBase := s.toReadyBase.arrive t }.expire
  { s with toSliceBase := slice }.draw t

def tick (t : ℤ) (s : LotteryScheduler) : LotteryScheduler :=
  let s := s.schedule t
  { s with toSliceBase := s.toSliceBase.execute t }

end LotteryScheduler

/-! ## Multi-level feedback queue (`sched_mlfq.go`) -/

structure MLFQQueueConfig where
  level : ℕ
  quantum : ℤ
  allotment : ℤ

structure MLFQScheduler extends SchedBase where
  numQueues : ℕ
  configs : List MLFQQueueConfig
  queues : List (List ℕ)
  boostPeriod : ℤ
  ticksSinceBoost : ℤ := 0
  currentSlice : ℤ := 0
  boostEvents : List ℤ := []

/-- The three-level configuration. -/
def mlfqConfigs : List MLFQQueueConfig := [⟨0, 2, 4⟩, ⟨1, 4, 8⟩, ⟨2, 8, 16⟩]

def newMLFQScheduler (boostPeriod : ℤ) : MLFQScheduler :=
  { numQueues := mlfqConfigs.length
    configs := mlfqConfigs
    queues := List.replicate mlfqConfigs.length []
    boostPeriod := if boostPeriod ≤ 0 then 50 else boostPeriod }

namespace MLFQScheduler

/-- The level and the allotment of a process are reset. -/
def toTop (p : Process) : Process := { p with currentQueue := 0, allotmentUsed := 0 }

def enter (t : ℤ) (p : Process) : Process :=
  if p.arrives t then toTop { p with state := .ready } else p

/-- Rule 5: every queued process moves to the top queue, level after level; the running
process keeps the slot.
SOURCE: pkg/cpu/sched_mlfq.go:78-104 -/
def boost (t : ℤ) (s : MLFQScheduler) : MLFQScheduler :=
  let s := { s with totalTime := t + 1, ticksSinceBoost := s.ticksSinceBoost + 1 }
  if s.ticksSinceBoost ≥ s.boostPeriod then
    let allReady := s.queues.flatten
    { s with
      boostEvents := s.boostEvents ++ [t]
      ticksSinceBoost := 0
      allProcesses := s.allProcesses.mapIdx fun i p =>
        if i ∈ allReady ∨ s.running = some i then toTop p else p
      queues := (List.replicate s.numQueues []).modify 0 (· ++ allReady) }
  else s

/-- Rule 3 and the waiting times.
SOURCE: pkg/cpu/sched_mlfq.go:107-121 -/
def arrive (t : ℤ) (s : MLFQScheduler) : MLFQScheduler :=
  let queues := s.queues.modify 0 (· ++ arrivals t s.allProcesses)
  { s with
    allProcesses := addWaiting queues.flatten (s.allProcesses.map (enter t))
    queues }

/-- The running process goes to the back of the queue of its level. -/
def requeue (j : ℕ) (s : MLFQScheduler) : MLFQScheduler :=
  { s with
    allProcesses := s.allProcesses.modify j Process.preempt
    queues := s.queues.modify (s.proc j).currentQueue (· ++ [j])
    running := none
    currentSlice := 0 }

/-- Rule 4: one level down unless at the lowest, with a fresh allotment. -/
def demote (numQueues : ℕ) (p : Process) : Process :=
  { p with
    currentQueue := if p.currentQueue < numQueues - 1 then p.currentQueue + 1 else p.currentQueue
    allotmentUsed := 0 }

/-- SOURCE: pkg/cpu/sched_mlfq.go:124-145 -/
def expire (s : MLFQScheduler) : MLFQScheduler :=
  match s.running with
  | some j =>
    let qCfg := s.configs.getD (s.proc j).currentQueue ⟨0, 0, 0⟩
    if (s.proc j).allotmentUsed ≥ qCfg.allotment then
      requeue j { s with allProcesses := s.allProcesses.modify j (demote s.numQueues) }
    else if s.currentSlice ≥ qCfg.quantum then requeue j s
    else s
  | none => s

/-- Rule 1: the first process of the first non-empty queue.
SOURCE: pkg/cpu/sched_mlfq.go:148-164 -/
def pick (t : ℤ) (s : MLFQScheduler) : MLFQScheduler :=
  match s.running with
  | some _ => s
  | none =>
    match s.queues.findIdx? (fun queue => 0 < queue.length) with
    | none => s
    | some q =>
      { s with
        toSchedBase := s.toSchedBase.dispatch t ((s.queues.getD q []).headD 0)
        queues := s.queues.modify q List.tail
        currentSlice := 0 }

def schedule (t : ℤ) (s : MLFQScheduler) : MLFQScheduler :=
  (((s.boost t).arrive t).expire).pick t

/-- The Gantt label of a process carries its level. -/
def label (p : Process) : String := p.name ++ "(Q" ++ toString p.currentQueue ++ ")"

/-- The execution half also counts the tick against the allotment.
SOURCE: pkg/cpu/sched_mlfq.go:166-192 -/
def tick (t : ℤ) (s : MLFQScheduler) : MLFQScheduler :=
  let s := s.schedule t
  match s.running with
  | none => { s with toSchedBase := s.toSchedBase.execute label t }
  | some j =>
    let b := { s.toSchedBase with
      allProcesses := s.allProcesses.modify j fun p =>
        { p with allotmentUsed := p.allotmentUsed + 1 } }
    let b := b.execute label t
    { s with
      toSchedBase := b
      currentSlice := if b.running.isNone then 0 else s.currentSlice + 1 }

end MLFQScheduler

/-! ## The `Scheduler` interface (`scheduler.go`) -/

/-- A value of the interface type. -/
inductive Scheduler where
  | fifo (s : FIFOScheduler)
  | sjf (s : SJFScheduler)
  | stcf (s : STCFScheduler)
  | rr (s : RRScheduler)
  | mlfq (s : MLFQScheduler)
  | lottery (s : LotteryScheduler)

namespace Scheduler

def base : Scheduler → SchedBase
  | fifo s => s.toSchedBase
  | sjf s => s.toSchedBase
  | stcf s => s.toSchedBase
  | rr s => s.toSchedBase
  | mlfq s => s.toSchedBase
  | lottery s => s.toSchedBase

/-- The ready queue; for MLFQ its queues one after the other, from the highest priority. -/
def ready : Scheduler → List ℕ
  | fifo s => s.readyQueue
  | sjf s => s.readyQueue
  | stcf s => s.readyQueue
  | rr s => s.readyQueue
  | mlfq s => s.queues.flatten
  | lottery s => s.readyQueue

def addProcess (p : Process) : Scheduler → Scheduler
  | fifo s => fifo { s with allProcesses := s.allProcesses ++ [p] }
  | sjf s => sjf { s with allProcesses := s.allProcesses ++ [p] }
  | stcf s => stcf { s with allProcesses := s.allProcesses ++ [p] }
  | rr s => rr { s with allProcesses := s.allProcesses ++ [p] }
  | mlfq s => mlfq { s with allProcesses := s.allProcesses ++ [p] }
  | lottery s => lottery { s with allProcesses := s.allProcesses ++ [p] }

/-- `Name()`. -/
def name : Scheduler → String
  | fifo _ => "FIFO (First-In, First-Out / FCFS)"
  | sjf _ => "SJF (Shortest Job First - Non-Preemptive)"
  | stcf _ => "STCF (Shortest Time-to-Completion First - Preemptive)"
  | rr s => s!"Round Robin (RR, Quantum = {s.quantum})"
  | mlfq s => s!"MLFQ (Multi-Level Feedback Queue, {s.numQueues} Queues, Boost={s.boostPeriod})"
  | lottery s => s!"Lottery Scheduler (Proportional Share, Quantum={s.quantum})"

/-- The first half of `Tick`. -/
def schedule (t : ℤ) : Scheduler → Scheduler
  | fifo s => fifo (s.schedule t)
  | sjf s => sjf (s.schedule t)
  | stcf s => stcf (s.schedule t)
  | rr s => rr (s.schedule t)
  | mlfq s => mlfq (s.schedule t)
  | lottery s => lottery (s.schedule t)

/-- The state after `Tick`. -/
def tick (t : ℤ) : Scheduler → Scheduler
  | fifo s => fifo (s.tick t)
  | sjf s => sjf (s.tick t)
  | stcf s => stcf (s.tick t)
  | rr s => rr (s.tick t)
  | mlfq s => mlfq (s.tick t)
  | lottery s => lottery (s.tick t)

/-- What `Tick` returns: the process left in the running slot, and `allDone`. -/
def tickResult (t : ℤ) (s : Scheduler) : Option ℕ × Bool :=
  ((s.tick t).base.running, (s.tick t).base.allDone)

/-- The state after `Tick(0), ..., Tick(n - 1)`. -/
def run (s : Scheduler) : ℕ → Scheduler
  | 0 => s
  | n + 1 => (run s n).tick n

/-- The process that tick `n` of the run executes; `none` when the CPU idles. -/
def executedAt (s : Scheduler) (n : ℕ) : Option ℕ :=
  ((s.run n).schedule n).base.running

end Scheduler

/-- The constructors of the six schedulers with their arguments. -/
inductive SchedulerKind where
  | fifo
  | sjf
  | stcf
  | rr (quantum : ℤ)
  | mlfq (boostPeriod : ℤ)
  | lottery (quantum : ℤ) (rng : Rand)

namespace SchedulerKind

def new : SchedulerKind → Scheduler
  | fifo => .fifo ⟨{}⟩
  | sjf => .sjf ⟨{}⟩
  | stcf => .stcf ⟨{}⟩
  | rr quantum => .rr (newRRScheduler quantum)
  | mlfq boostPeriod => .mlfq (newMLFQScheduler boostPeriod)
  | lottery quantum rng => .lottery (newLotteryScheduler quantum rng)

/-- A new scheduler with clones of the given processes added before the first tick.
SOURCE: pkg/cpu/cpu_test.go:15-18 -/
def load (k : SchedulerKind) (procs : List Process) : Scheduler :=
  procs.foldl (fun s p => s.addProcess p.clone) k.new

end SchedulerKind

end OsSimulator.Model
