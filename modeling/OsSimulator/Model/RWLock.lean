import OsSimulator.Model.SyncCond
import Mathlib.Data.Int.Notation
import Mathlib.Logic.Function.Basic

/-!
# The reader-writer lock (`pkg/concurrency/rwlock.go`)

Any number of threads, each of which locks and unlocks one `RWLock` for reading or for writing, as
often as it likes; a thread releases only what it holds.  (A goroutine that locks again what it
holds is one thread for each of its holds.)  One step is what a thread does from taking the mutex
`mu` to its next `Wait` or its return, and steps of different threads interleave in any order.  A
step also has the choice of `Signal`.

The two counters count threads and are unbounded.

* `rLock`, `rUnlock`: pkg/concurrency/rwlock.go:26-46
* `lock`, `unlock`: pkg/concurrency/rwlock.go:49-73
-/

set_option autoImplicit false

namespace OsSimulator.Model

structure RWLock where
  readersCount : ℤ := 0
  writerActive : Bool := false
  writerWaiters : ℤ := 0

/-- Where a thread is. -/
inductive RWPc where
  | idle
  /-- in `Wait` on `readOK`, not woken yet -/
  | readParked
  /-- woken, and on the way back to the mutex -/
  | readWoken
  | reading
  | writeParked
  | writeWoken
  | writing
deriving DecidableEq, Repr

/-- What a thread does next: a call, or going on after a wake-up. -/
inductive RWAction where
  | rLock
  | rUnlock
  | lock
  | unlock
  | resume
deriving DecidableEq, Repr

/-- The lock, the threads waiting on its two condition variables, and all threads. -/
structure RWLockSystem (T : Type*) extends RWLock where
  readOK : List T := []
  writeOK : List T := []
  pc : T → RWPc := fun _ => .idle

def newRWLockSystem (T : Type*) : RWLockSystem T := {}

def RWPc.wake : RWPc → RWPc
  | .readParked => .readWoken
  | .writeParked => .writeWoken
  | pc => pc

namespace RWLockSystem

variable {T : Type*} [DecidableEq T]

/-- The loop of `RLock`, and what follows it.
SOURCE: pkg/concurrency/rwlock.go:31-34 -/
def rLock (t : T) (s : RWLockSystem T) : RWLockSystem T :=
  if s.writerActive = true ∨ s.writerWaiters > 0 then
    { s with readOK := s.readOK ++ [t], pc := Function.update s.pc t .readParked }
  else { s with readersCount := s.readersCount + 1, pc := Function.update s.pc t .reading }

/-- `rw.writeOK.Signal()` -/
def signalWriter (pick : ℕ → ℕ) (s : RWLockSystem T) : RWLockSystem T :=
  let signalled := signalWaiters pick s.writeOK
  { s with writeOK := signalled.2, pc := wakeThreads RWPc.wake signalled.1 s.pc }

/-- `rw.readOK.Broadcast()` -/
def broadcastReaders (s : RWLockSystem T) : RWLockSystem T :=
  { s with readOK := [], pc := wakeThreads RWPc.wake s.readOK s.pc }

/-- SOURCE: pkg/concurrency/rwlock.go:38-46 -/
def rUnlock (pick : ℕ → ℕ) (t : T) (s : RWLockSystem T) : RWLockSystem T :=
  let s := { s with readersCount := s.readersCount - 1 }
  let s := if s.readersCount = 0 then s.signalWriter pick else s
  { s with pc := Function.update s.pc t .idle }

/-- The loop of `Lock`, and what follows it.
SOURCE: pkg/concurrency/rwlock.go:54-58 -/
def lockLoop (t : T) (s : RWLockSystem T) : RWLockSystem T :=
  if s.writerActive = true ∨ s.readersCount > 0 then
    { s with writeOK := s.writeOK ++ [t], pc := Function.update s.pc t .writeParked }
  else
    { s with
      writerWaiters := s.writerWaiters - 1
      writerActive := true
      pc := Function.update s.pc t .writing }

/-- SOURCE: pkg/concurrency/rwlock.go:49-59 -/
def lock (t : T) (s : RWLockSystem T) : RWLockSystem T :=
  { s with writerWaiters := s.writerWaiters + 1 }.lockLoop t

/-- SOURCE: pkg/concurrency/rwlock.go:62-73 -/
def unlock (pick : ℕ → ℕ) (t : T) (s : RWLockSystem T) : RWLockSystem T :=
  let s := { s with writerActive := false }
  let s := if s.writerWaiters > 0 then s.signalWriter pick else s.broadcastReaders
  { s with pc := Function.update s.pc t .idle }

/-- The step of thread `t`; an action that is not possible where the thread is does nothing. -/
def step (t : T) (action : RWAction) (pick : ℕ → ℕ) (s : RWLockSystem T) : RWLockSystem T :=
  match s.pc t, action with
  | .idle, .rLock => s.rLock t
  | .readWoken, .resume => s.rLock t
  | .reading, .rUnlock => s.rUnlock pick t
  | .idle, .lock => s.lock t
  | .writeWoken, .resume => s.lockLoop t
  | .writing, .unlock => s.unlock pick t
  | _, _ => s

end RWLockSystem

/-- A new lock after the given steps. -/
def runRWLock {T : Type*} [DecidableEq T] (schedule : List (T × RWAction × (ℕ → ℕ))) :
    RWLockSystem T :=
  schedule.foldl (fun s m => s.step m.1 m.2.1 m.2.2) (newRWLockSystem T)

end OsSimulator.Model
