import OsSimulator.Model.Epoll
import OsSimulator.Library.EventRun

/-!
# Epoll under many threads (`pkg/io/epoll.go`)

Any number of threads call `EpollWait`, `EpollCtl` and `NotifyDeviceInterrupt` on one instance, as
often as they like.  One step is a section under the mutex `mu`, a send or a receive on `wakeCh`, or
a timeout; steps of different threads interleave in any order.  `NotifyDeviceInterrupt` sends on
`wakeCh` while it holds the mutex, so its section has two steps; between them other threads can
receive or time out, but not enter a section.

A timeout may elapse at any time.  If the channel has a token as well, `select` takes either branch:
the choice is part of the action.  A slice of negative length panics with the mutex locked.

* `notify`, `send`: pkg/io/epoll.go:84-102
* `wait`, `select`, `take`: pkg/io/epoll.go:105-135
-/

set_option autoImplicit false

namespace OsSimulator.Model

/-- Where a thread is. -/
inductive EpollPc where
  | idle
  /-- in the `select` of `EpollWait(maxEvents, _)` -/
  | selecting (maxEvents : ℤ)
  /-- has received a token, and is on the way to the mutex -/
  | woken (maxEvents : ℤ)
  /-- in `NotifyDeviceInterrupt`, before the send -/
  | sending
  | panicked
deriving DecidableEq, Repr

/-- What a thread does next: a call, or going on in one; `timedOut` is the choice of `select`. -/
inductive EpollAction (D : Type*) where
  | wait (maxEvents : ℤ)
  | ctl (op : EpollCtlOp) (d : D) (event : Option (EpollEvent D))
  | notify (d : D) (events : UInt32)
  | resume (timedOut : Bool)

/-- What a step reports. -/
inductive EpollReport (D : Type*) where
  /-- a notification of a registered descriptor -/
  | accepted (ev : EpollEvent D)
  /-- the list an `EpollWait` returns -/
  | taken (returned : List (EpollEvent D))
  /-- an `EpollWait` returns an empty list through its timeout branch -/
  | timedOut
deriving DecidableEq, Repr

/-- The instance, the descriptors, who holds the mutex between two steps, and all threads. -/
structure EpollThreads (D T : Type*) extends EpollSystem D where
  holder : Option T := none
  pc : T → EpollPc := fun _ => .idle

namespace EpollThreads

variable {D T : Type*} [DecidableEq D] [DecidableEq T]

/-- `returned := ep.ReadyList[:count]` and what goes with it.
SOURCE: pkg/io/epoll.go:108-115, 122-129 -/
def take (t : T) (maxEvents : ℤ) (s : EpollThreads D T) :
    EpollThreads D T × List (EpollReport D) :=
  match s.ep.takeReady maxEvents with
  | none => ({ s with holder := some t, pc := Function.update s.pc t .panicked }, [])
  | some (returned, ep) =>
    ({ s with ep, pc := Function.update s.pc t .idle }, [.taken returned])

/-- `EpollWait` up to its return or its `select`.
SOURCE: pkg/io/epoll.go:106-117 -/
def wait (t : T) (maxEvents : ℤ) (s : EpollThreads D T) :
    EpollThreads D T × List (EpollReport D) :=
  if s.ep.readyList.length > 0 then s.take t maxEvents
  else ({ s with pc := Function.update s.pc t (.selecting maxEvents) }, [])

/-- The `select` of `EpollWait`.
SOURCE: pkg/io/epoll.go:120-134 -/
def select (t : T) (maxEvents : ℤ) (timedOut : Bool) (s : EpollThreads D T) :
    EpollThreads D T × List (EpollReport D) :=
  if timedOut then ({ s with pc := Function.update s.pc t .idle }, [.timedOut])
  else if s.ep.wakeCh then
    ({ s with
        ep := { s.ep with wakeCh := false }
        pc := Function.update s.pc t (.woken maxEvents) }, [])
  else (s, [])

/-- `NotifyDeviceInterrupt` up to its send.
SOURCE: pkg/io/epoll.go:85-94 -/
def notify (t : T) (d : D) (events : UInt32) (s : EpollThreads D T) :
    EpollThreads D T × List (EpollReport D) :=
  if (s.ep.interestList (s.fds d).fd).isSome then
    ({ s with
        ep := s.ep.pushReady d events
        fds := Epoll.markReady d s.fds
        holder := some t
        pc := Function.update s.pc t .sending }, [.accepted { events, fd := d }])
  else (s, [])

/-- The send, and the return.
SOURCE: pkg/io/epoll.go:97-101 -/
def send (t : T) (s : EpollThreads D T) : EpollThreads D T × List (EpollReport D) :=
  ({ s with ep := s.ep.sendWake, holder := none, pc := Function.update s.pc t .idle }, [])

/-- The step of thread `t`.  A section waits for the mutex; an action that is not possible where the
thread is does nothing. -/
def step (move : T × EpollAction D) (s : EpollThreads D T) :
    EpollThreads D T × List (EpollReport D) :=
  match s.pc move.1, move.2, s.holder with
  | .idle, .wait maxEvents, none => s.wait move.1 maxEvents
  | .idle, .ctl op d event, none =>
    ({ s with ep := (s.ep.epollCtl op (s.fds d) event).2 }, [])
  | .idle, .notify d events, none => s.notify move.1 d events
  | .selecting maxEvents, .resume timedOut, _ => s.select move.1 maxEvents timedOut
  | .woken maxEvents, .resume _, none => s.take move.1 maxEvents
  | .sending, .resume _, _ => s.send move.1
  | _, _, _ => (s, [])

end EpollThreads

/-- A new instance beside the given descriptors, after the given steps, with all reports. -/
def runEpollThreads {D T : Type*} [DecidableEq D] [DecidableEq T] (fds : D → FileDescriptor)
    (schedule : List (T × EpollAction D)) : EpollThreads D T × List (EpollReport D) :=
  Library.eventRun EpollThreads.step { fds } schedule

end OsSimulator.Model
