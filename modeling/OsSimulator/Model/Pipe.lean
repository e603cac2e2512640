import OsSimulator.Model.SyncCond
import OsSimulator.Library.EventRun
import Mathlib.Algebra.Group.Nat.Defs
import Mathlib.Data.List.Basic
import Mathlib.Logic.Function.Basic

/-!
# The pipe (`pkg/ipc/pipe.go`)

Any number of concurrent calls on one `UnixPipe`, each named by an element of a type `T`.  The
lock is held except in `Wait`, so one step of a call is what it does from taking the lock (when
it starts, or when it was woken) to its next `Wait` or its return; steps of different calls
interleave in any order.  A step also has the choices of `Signal`, which wakes any one of the
waiting calls: `pick n` chooses among `n` of them.

A step returns its events: the bytes that a `Write` appends and those that a `Read` delivers.

* `UnixPipe`, `newUnixPipe`: pkg/ipc/pipe.go:17-43
* `writeLoop`, `beginWrite`: `Write`, pkg/ipc/pipe.go:46-70
* `readSection`: `Read`, pkg/ipc/pipe.go:73-98
* `closeWrite`, `closeRead`: pkg/ipc/pipe.go:101-116

Left out: the two errors that nothing returns and the rendering.
-/

set_option autoImplicit false

namespace OsSimulator.Model

/-- `ErrPipeClosed` -/
def errPipeClosed : String := "broken pipe (EPIPE): write to pipe with no readers (SIGPIPE)"

structure UnixPipe where
  capacity : ℕ
  buffer : List UInt8 := []
  readClosed : Bool := false
  writeClosed : Bool := false
  totalWritten : ℕ := 0
  totalRead : ℕ := 0

/-- SOURCE: pkg/ipc/pipe.go:31-43 -/
def newUnixPipe (capacity : Int64) : UnixPipe where
  capacity := if capacity ≤ 0 then 4096 else capacity.toInt.toNat

/-- A call with its arguments; of the destination of a `Read` only the length matters. -/
inductive PipeCall where
  | write (data : List UInt8)
  | read (len : ℕ)
  | closeWrite
  | closeRead
deriving DecidableEq, Repr

/-- What a call returns; a `Read` returns the bytes in its destination. -/
inductive PipeReply where
  | wrote (n : ℕ) (err : Option String)
  | read (bytes : List UInt8)
  | closed
deriving DecidableEq, Repr

/-- Where a call is; the number is the variable `written` of a `Write`. -/
inductive PipePc where
  | idle
  /-- in `Wait`, not woken yet -/
  | parked (written : ℕ)
  /-- woken, and waiting for the lock -/
  | woken (written : ℕ)
  | returned (reply : PipeReply)
deriving DecidableEq, Repr

inductive PipeEvent (T : Type*) where
  | appended (t : T) (b : UInt8)
  | delivered (t : T) (bytes : List UInt8)
deriving DecidableEq, Repr

/-- The pipe, the calls waiting on its two condition variables, and all calls. -/
structure PipeSystem (T : Type*) extends UnixPipe where
  notEmpty : List T := []
  notFull : List T := []
  pc : T → PipePc := fun _ => .idle

def newPipeSystem (T : Type*) (capacity : Int64) : PipeSystem T where
  toUnixPipe := newUnixPipe capacity

def PipePc.wake : PipePc → PipePc
  | .parked written => .woken written
  | pc => pc

namespace PipeSystem

variable {T : Type*} [DecidableEq T]

def reply (t : T) (r : PipeReply) (s : PipeSystem T) : PipeSystem T :=
  { s with pc := Function.update s.pc t (.returned r) }

/-- The body of the loop of `Write` that appends a byte.
SOURCE: pkg/ipc/pipe.go:63-66 -/
def appendByte (b : UInt8) (pick : ℕ → ℕ) (s : PipeSystem T) : PipeSystem T :=
  let signalled := signalWaiters pick s.notEmpty
  { s with
    buffer := s.buffer ++ [b]
    totalWritten := s.totalWritten + 1
    notEmpty := signalled.2
    pc := wakeThreads PipePc.wake signalled.1 s.pc }

/-- The loop of `Write` over the bytes that are left.
SOURCE: pkg/ipc/pipe.go:55-69 -/
def writeLoop (t : T) (pick : ℕ → ℕ) :
    List UInt8 → ℕ → PipeSystem T → PipeSystem T × List (PipeEvent T)
  | [], written, s => (s.reply t (.wrote written none), [])
  | b :: rest, written, s =>
    if s.buffer.length ≥ s.capacity ∧ s.readClosed = false then
      ({ s with
         notFull := s.notFull ++ [t]
         pc := Function.update s.pc t (.parked written) }, [])
    else if s.readClosed then (s.reply t (.wrote written (some errPipeClosed)), [])
    else
      let r := writeLoop t pick rest (written + 1) (s.appendByte b pick)
      (r.1, .appended t b :: r.2)

/-- SOURCE: pkg/ipc/pipe.go:46-54 -/
def beginWrite (t : T) (pick : ℕ → ℕ) (data : List UInt8) (s : PipeSystem T) :
    PipeSystem T × List (PipeEvent T) :=
  if s.readClosed then (s.reply t (.wrote 0 (some errPipeClosed)), [])
  else s.writeLoop t pick data 0

/-- SOURCE: pkg/ipc/pipe.go:73-98 -/
def readSection (t : T) (pick : ℕ → ℕ) (len : ℕ) (s : PipeSystem T) :
    PipeSystem T × List (PipeEvent T) :=
  if s.buffer.length = 0 ∧ s.writeClosed = false then
    ({ s with
       notEmpty := s.notEmpty ++ [t]
       pc := Function.update s.pc t (.parked 0) }, [])
  else if s.buffer.length = 0 ∧ s.writeClosed = true then
    (s.reply t (.read []), [.delivered t []])
  else
    let toRead := if len > s.buffer.length then s.buffer.length else len
    let bytes := s.buffer.take toRead
    let signalled := signalWaiters pick s.notFull
    ({ s with
       buffer := s.buffer.drop toRead
       totalRead := s.totalRead + toRead
       notFull := signalled.2
       pc := Function.update (wakeThreads PipePc.wake signalled.1 s.pc) t
         (.returned (.read bytes)) },
      [.delivered t bytes])

/-- SOURCE: pkg/ipc/pipe.go:101-107 -/
def closeWrite (t : T) (s : PipeSystem T) : PipeSystem T :=
  { s with
    writeClosed := true
    notEmpty := []
    pc := Function.update (wakeThreads PipePc.wake s.notEmpty s.pc) t (.returned .closed) }

/-- SOURCE: pkg/ipc/pipe.go:110-116 -/
def closeRead (t : T) (s : PipeSystem T) : PipeSystem T :=
  { s with
    readClosed := true
    notFull := []
    pc := Function.update (wakeThreads PipePc.wake s.notFull s.pc) t (.returned .closed) }

/-- The step of call `t` when it has the lock; one that waits or has returned does not move. -/
def step (call : T → PipeCall) (t : T) (pick : ℕ → ℕ) (s : PipeSystem T) :
    PipeSystem T × List (PipeEvent T) :=
  match s.pc t, call t with
  | .idle, .write data => s.beginWrite t pick data
  | .idle, .read len => s.readSection t pick len
  | .idle, .closeWrite => (s.closeWrite t, [])
  | .idle, .closeRead => (s.closeRead t, [])
  | .woken written, .write data => s.writeLoop t pick (data.drop written) written
  | .woken _, .read len => s.readSection t pick len
  | _, _ => (s, [])

end PipeSystem

/-- A new pipe after the given steps, and all events. -/
def runPipe {T : Type*} [DecidableEq T] (capacity : Int64) (call : T → PipeCall)
    (schedule : List (T × (ℕ → ℕ))) : PipeSystem T × List (PipeEvent T) :=
  Library.eventRun (fun m s => s.step call m.1 m.2) (newPipeSystem T capacity) schedule

end OsSimulator.Model
