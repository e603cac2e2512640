import OsSimulator.Library.EventRun
import Mathlib.Data.Finset.Insert
import Mathlib.Logic.Function.Basic

/-!
# The bounded buffer (`pkg/concurrency/condvar.go`)

Any number of concurrent calls of `Put` and `Get` on one `BoundedBuffer`, each named by an element
of a type `T`.  The mutex is ideal: one step of a call is one critical section, from taking the
mutex (when it starts, or after its channel was closed) to its next `Wait` or its return, and
steps of different calls interleave in any order.

The condition variables are those of the source: `Wait` queues a new channel, `Signal` closes the
first channel of the queue.  Channels are numbered in the order of allocation.  A step returns
its events: the item a `Put` appends or a `Get` takes.

* `wait`, `signal`: `CondVar.Wait` and `CondVar.Signal`, pkg/concurrency/condvar.go:25-52
* `putSection`, `getSection`: `Put` and `Get`, pkg/concurrency/condvar.go:86-114

Left out: `Broadcast`, which the buffer does not call, and the lock of the queue of waiters, which
is only taken inside a critical section.
-/

set_option autoImplicit false

namespace OsSimulator.Model

/-- The condition variables of the buffer. -/
inductive CondName where
  | notFull
  | notEmpty
deriving DecidableEq, Repr

inductive BufferCall where
  | put (item : Int64)
  | get
deriving DecidableEq, Repr

/-- Where a call is; a `Get` returns an item. -/
inductive BufferPc where
  | idle
  /-- at `<-ch` in `Wait`, or on the way back to the mutex -/
  | parked (ch : ℕ)
  | returned (item : Option Int64)
  /-- the call has closed a closed channel -/
  | panicked
deriving DecidableEq, Repr

inductive BufferEvent (T : Type*) where
  | put (t : T) (item : Int64)
  | got (t : T) (item : Int64)
deriving DecidableEq, Repr

structure BoundedBuffer where
  capacity : ℕ
  buffer : List Int64 := []

/-- The buffer, the channels in the queues of its condition variables, and all calls. -/
structure BufferSystem (T : Type*) extends BoundedBuffer where
  waiters : CondName → List ℕ := fun _ => []
  channels : ℕ := 0
  closed : Finset ℕ := ∅
  pc : T → BufferPc := fun _ => .idle

/-- SOURCE: pkg/concurrency/condvar.go:74-83 -/
def newBufferSystem (T : Type*) (capacity : ℕ) : BufferSystem T where
  capacity := capacity

namespace BufferSystem

variable {T : Type*} [DecidableEq T]

/-- The part of `Wait` before the mutex is released.
SOURCE: pkg/concurrency/condvar.go:25-36 -/
def wait (cv : CondName) (t : T) (s : BufferSystem T) : BufferSystem T :=
  { s with
    waiters := Function.update s.waiters cv (s.waiters cv ++ [s.channels])
    channels := s.channels + 1
    pc := Function.update s.pc t (.parked s.channels) }

/-- `none` is a panic: the channel is closed already.
SOURCE: pkg/concurrency/condvar.go:43-52 -/
def signal (cv : CondName) (s : BufferSystem T) : Option (BufferSystem T) :=
  match s.waiters cv with
  | [] => some s
  | ch :: rest =>
    if ch ∈ s.closed then none
    else some { s with
      waiters := Function.update s.waiters cv rest
      closed := insert ch s.closed }

/-- The end of a call: it signals and returns. -/
def signalAndReturn (cv : CondName) (t : T) (item : Option Int64) (s : BufferSystem T) :
    BufferSystem T :=
  match s.signal cv with
  | none => { s with pc := Function.update s.pc t .panicked }
  | some s => { s with pc := Function.update s.pc t (.returned item) }

/-- SOURCE: pkg/concurrency/condvar.go:86-97 -/
def putSection (t : T) (item : Int64) (s : BufferSystem T) :
    BufferSystem T × List (BufferEvent T) :=
  if s.buffer.length = s.capacity then (s.wait .notFull t, [])
  else
    ({ s with buffer := s.buffer ++ [item] }.signalAndReturn .notEmpty t none, [.put t item])

/-- SOURCE: pkg/concurrency/condvar.go:100-114 -/
def getSection (t : T) (s : BufferSystem T) : BufferSystem T × List (BufferEvent T) :=
  match s.buffer with
  | [] => (s.wait .notEmpty t, [])
  | item :: rest =>
    ({ s with buffer := rest }.signalAndReturn .notFull t (some item), [.got t item])

/-- The call can take the mutex: it starts, or its channel was closed. -/
def canEnter (s : BufferSystem T) (t : T) : Bool :=
  match s.pc t with
  | .idle => true
  | .parked ch => decide (ch ∈ s.closed)
  | _ => false

/-- The step of call `t` when it has the mutex; one that waits or has returned does not move. -/
def step (call : T → BufferCall) (t : T) (s : BufferSystem T) :
    BufferSystem T × List (BufferEvent T) :=
  if s.canEnter t then
    match call t with
    | .put item => s.putSection t item
    | .get => s.getSection t
  else (s, [])

end BufferSystem

/-- A new buffer after the given steps, and all events. -/
def runBuffer {T : Type*} [DecidableEq T] (capacity : ℕ) (call : T → BufferCall)
    (schedule : List T) : BufferSystem T × List (BufferEvent T) :=
  Library.eventRun (BufferSystem.step call) (newBufferSystem T capacity) schedule

end OsSimulator.Model
