import Mathlib.Data.Finset.Insert
import Mathlib.Logic.Function.Basic

/-!
# The blocking mutex (`pkg/concurrency/mutex.go`)

Any number of threads alternate `Lock` and `Unlock`.  One step is one atomic operation,
one critical section of the internal queue guard, or one channel operation, and steps
of different threads interleave in any order.

A wait node is a number, in the order of allocation; its channel is open until `Unlock`
closes it.

* `compareAndSwap`, `enqueue`, `receive`: `Lock`, pkg/concurrency/mutex.go:30-46
* `release`, `wake`: `Unlock`, pkg/concurrency/mutex.go:49-67
-/

set_option autoImplicit false

namespace OsSimulator.Model

/-- The values `0`, `1` and `2` of the field `state`. -/
inductive LockState where
  | unlocked
  | locked
  | lockedWithWaiters
deriving DecidableEq, Repr

structure Mutex where
  state : LockState
  waiters : List ℕ

def newMutex : Mutex := ⟨.unlocked, []⟩

/-- Where a thread is in its loop of `Lock` and `Unlock`. -/
inductive ThreadPc where
  | outside
  /-- the CAS of `Lock` has failed and the node is not queued yet -/
  | failed (node : ℕ)
  /-- at `<-node.ready` -/
  | waiting (node : ℕ)
  | holding
  /-- `Unlock` has popped the node and not closed its channel yet -/
  | waking (node : ℕ)
  /-- the thread has closed a closed channel -/
  | panicked
deriving DecidableEq, Repr

/-- A mutex together with the threads that use it. -/
structure MutexSystem (T : Type*) extends Mutex where
  nodes : ℕ
  closed : Finset ℕ
  pc : T → ThreadPc

def newMutexSystem (T : Type*) : MutexSystem T where
  toMutex := newMutex
  nodes := 0
  closed := ∅
  pc := fun _ => .outside

namespace MutexSystem

variable {T : Type*} [DecidableEq T]

def compareAndSwap (t : T) (s : MutexSystem T) : MutexSystem T :=
  if s.state = .unlocked then
    { s with state := .locked, pc := Function.update s.pc t .holding }
  else
    { s with nodes := s.nodes + 1, pc := Function.update s.pc t (.failed s.nodes) }

/-- The critical section of `Lock`. -/
def enqueue (t : T) (node : ℕ) (s : MutexSystem T) : MutexSystem T :=
  { s with
    waiters := s.waiters ++ [node]
    state := .lockedWithWaiters
    pc := Function.update s.pc t (.waiting node) }

/-- The receive blocks while the channel is open. -/
def receive (t : T) (node : ℕ) (s : MutexSystem T) : Option (MutexSystem T) :=
  if node ∈ s.closed then some { s with pc := Function.update s.pc t .holding } else none

/-- The critical section of `Unlock`. -/
def release (t : T) (s : MutexSystem T) : MutexSystem T :=
  match s.waiters with
  | next :: rest =>
    { s with
      waiters := rest
      state := if rest.length = 0 then .locked else s.state
      pc := Function.update s.pc t (.waking next) }
  | [] => { s with state := .unlocked, pc := Function.update s.pc t .outside }

def wake (t : T) (node : ℕ) (s : MutexSystem T) : MutexSystem T :=
  if node ∈ s.closed then { s with pc := Function.update s.pc t .panicked }
  else { s with closed := insert node s.closed, pc := Function.update s.pc t .outside }

/-- The next step of thread `t`; `none` when it cannot move. -/
def step (t : T) (s : MutexSystem T) : Option (MutexSystem T) :=
  match s.pc t with
  | .outside => some (s.compareAndSwap t)
  | .failed node => some (s.enqueue t node)
  | .waiting node => s.receive t node
  | .holding => some (s.release t)
  | .waking node => some (s.wake t node)
  | .panicked => none

/-- The steps of the threads in the given order. -/
def run (schedule : List T) (s : MutexSystem T) : Option (MutexSystem T) :=
  schedule.foldlM (fun s t => s.step t) s

end MutexSystem

end OsSimulator.Model
