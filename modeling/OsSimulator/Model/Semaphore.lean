import OsSimulator.Library.EventRun
import Mathlib.Data.Finset.Insert
import Mathlib.Logic.Function.Basic

/-!
# The semaphore (`pkg/concurrency/semaphore.go`)

Any number of concurrent callers of one `Semaphore`, each named by an element of a type `T`: calls
of `Wait`, calls of `Signal`, and callers that do a `Wait`, some work and a `Signal`, as `WriteSync`
and `ReadSync` of `pkg/ipc/shared_memory.go` do.  A caller waits at most once, so the channel it
makes has its name.

One step is a critical section, or what is done outside of one: closing a channel after the
mutex was released, and coming back from a closed channel.  The value is a 64-bit integer and
wraps around.  A step returns its events: the passed critical sections, and who was queued or
taken from the queue there.

* `waitSection`, `signalSection`: `Wait` and `Signal`, pkg/concurrency/semaphore.go:26-51
* `SemaphoreCall.sync`: `WriteSync` and `ReadSync`, pkg/ipc/shared_memory.go:90-105; the copying
  between the two calls does not touch the semaphore
-/

set_option autoImplicit false

namespace OsSimulator.Model

inductive SemaphoreCall where
  | wait
  | signal
  | sync
deriving DecidableEq, Repr

/-- Where a caller is. -/
inductive SemaphorePc (T : Type*) where
  | idle
  /-- at `<-ch` in `Wait` -/
  | parked
  /-- between `Wait` and `Signal` -/
  | inside
  /-- in `Signal`, before `close(ch)` -/
  | closing (ch : T)
  | returned
  /-- the caller has closed a closed channel -/
  | panicked
deriving DecidableEq, Repr

inductive SemaphoreEvent (T : Type*) where
  | waited (t : T)
  | enqueued (t : T)
  | signalled (t : T)
  | released (t : T)
deriving DecidableEq, Repr

structure Semaphore (T : Type*) where
  value : Int64
  waiters : List T := []

/-- The semaphore, the closed channels and all callers. -/
structure SemaphoreSystem (T : Type*) extends Semaphore T where
  closed : Finset T := ∅
  pc : T → SemaphorePc T := fun _ => .idle

/-- SOURCE: pkg/concurrency/semaphore.go:18-23 -/
def newSemaphore (T : Type*) (initialValue : Int64) : SemaphoreSystem T where
  value := initialValue

/-- Where a caller goes on when its `Wait` returns. -/
def SemaphoreCall.afterWait {T : Type*} : SemaphoreCall → SemaphorePc T
  | .sync => .inside
  | _ => .returned

namespace SemaphoreSystem

variable {T : Type*} [DecidableEq T]

/-- SOURCE: pkg/concurrency/semaphore.go:27-36 -/
def waitSection (call : T → SemaphoreCall) (t : T) (s : SemaphoreSystem T) :
    SemaphoreSystem T × List (SemaphoreEvent T) :=
  let value := s.value - 1
  if value < 0 then
    ({ s with
       value := value
       waiters := s.waiters ++ [t]
       pc := Function.update s.pc t .parked }, [.waited t, .enqueued t])
  else
    ({ s with value := value, pc := Function.update s.pc t (call t).afterWait }, [.waited t])

/-- SOURCE: pkg/concurrency/semaphore.go:41-46, 50 -/
def signalSection (t : T) (s : SemaphoreSystem T) : SemaphoreSystem T × List (SemaphoreEvent T) :=
  match s.waiters with
  | ch :: rest =>
    ({ s with
       value := s.value + 1
       waiters := rest
       pc := Function.update s.pc t (.closing ch) }, [.signalled t, .released ch])
  | [] => ({ s with value := s.value + 1, pc := Function.update s.pc t .returned }, [.signalled t])

/-- SOURCE: pkg/concurrency/semaphore.go:47 -/
def close (ch t : T) (s : SemaphoreSystem T) : SemaphoreSystem T :=
  if ch ∈ s.closed then { s with pc := Function.update s.pc t .panicked }
  else { s with closed := insert ch s.closed, pc := Function.update s.pc t .returned }

/-- The step of caller `t`; one whose channel is open, or that has returned, does not move. -/
def step (call : T → SemaphoreCall) (t : T) (s : SemaphoreSystem T) :
    SemaphoreSystem T × List (SemaphoreEvent T) :=
  match s.pc t, call t with
  | .idle, .signal => s.signalSection t
  | .idle, _ => s.waitSection call t
  | .inside, _ => s.signalSection t
  | .parked, c =>
    if t ∈ s.closed then ({ s with pc := Function.update s.pc t c.afterWait }, []) else (s, [])
  | .closing ch, _ => (s.close ch t, [])
  | _, _ => (s, [])

end SemaphoreSystem

/-- A new semaphore after the given steps, and all events. -/
def runSemaphore {T : Type*} [DecidableEq T] (initialValue : Int64) (call : T → SemaphoreCall)
    (schedule : List T) : SemaphoreSystem T × List (SemaphoreEvent T) :=
  Library.eventRun (SemaphoreSystem.step call) (newSemaphore T initialValue) schedule

end OsSimulator.Model
