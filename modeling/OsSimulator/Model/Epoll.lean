import Mathlib.Data.Int.Notation
import Mathlib.Data.List.Basic
import Mathlib.Logic.Function.Basic

/-!
# Epoll (`pkg/io/epoll.go`)

Descriptors are named by pointers of a type `D`; their numbers are the keys of the interest list.
The channel `wakeCh` has one place, so all there is to know is whether it holds a token.

`epollWait` is a call that is not interrupted by others: it finds the ready list empty, and the
choice of `select` between a token and the timeout is an argument.  `none` is a panic: a negative
`maxEvents` cuts the ready list at a negative index.

* `FileDescriptor`: pkg/io/blocking_io.go:9-15
* `epollCtl`: pkg/io/epoll.go:56-81
* `notifyDeviceInterrupt`: pkg/io/epoll.go:84-102
* `epollWait`: pkg/io/epoll.go:105-135

Left out: the name and the flag `IsNonBlock` of a descriptor, which nothing here reads.
-/

set_option autoImplicit false

namespace OsSimulator.Model

structure FileDescriptor where
  fd : ℤ
  dataBuffer : List UInt8 := []
  isReady : Bool := false
deriving DecidableEq, Repr

/-- `EPOLLIN`: ready for reading. -/
def epollIn : UInt32 := 0x001

/-- `EPOLLOUT`: ready for writing. -/
def epollOut : UInt32 := 0x002

structure EpollEvent (D : Type*) where
  events : UInt32
  fd : D
deriving DecidableEq, Repr

/-- The three operations, and any other number. -/
inductive EpollCtlOp where
  | add
  | mod
  | del
  | other
deriving DecidableEq, Repr

structure Epoll (D : Type*) where
  /-- an entry may be a nil pointer -/
  interestList : ℤ → Option (Option (EpollEvent D)) := fun _ => none
  readyList : List (EpollEvent D) := []
  wakeCh : Bool := false

def errEEXIST (fd : ℤ) : String :=
  "EEXIST: file descriptor " ++ toString fd ++ " already in epoll interest list"

def errENOENT (fd : ℤ) : String :=
  "ENOENT: file descriptor " ++ toString fd ++ " not in epoll interest list"

namespace Epoll

variable {D : Type*}

/-- The error, if any, and the instance after the call.
SOURCE: pkg/io/epoll.go:56-81 -/
def epollCtl (op : EpollCtlOp) (fd : FileDescriptor) (event : Option (EpollEvent D))
    (ep : Epoll D) : Option String × Epoll D :=
  match op with
  | .add =>
    if (ep.interestList fd.fd).isSome then (some (errEEXIST fd.fd), ep)
    else (none, { ep with interestList := Function.update ep.interestList fd.fd (some event) })
  | .mod =>
    if (ep.interestList fd.fd).isNone then (some (errENOENT fd.fd), ep)
    else (none, { ep with interestList := Function.update ep.interestList fd.fd (some event) })
  | .del =>
    if (ep.interestList fd.fd).isNone then (some (errENOENT fd.fd), ep)
    else (none, { ep with interestList := Function.update ep.interestList fd.fd none })
  | .other => (none, ep)

/-- SOURCE: pkg/io/epoll.go:90-94 -/
def pushReady (d : D) (events : UInt32) (ep : Epoll D) : Epoll D :=
  { ep with readyList := ep.readyList ++ [{ events, fd := d }] }

/-- The send on `wakeCh`, which gives up if the place is taken.
SOURCE: pkg/io/epoll.go:97-100 -/
def sendWake (ep : Epoll D) : Epoll D := { ep with wakeCh := true }

/-- `fd.IsReady = true` -/
def markReady [DecidableEq D] (d : D) (fds : D → FileDescriptor) : D → FileDescriptor :=
  Function.update fds d { fds d with isReady := true }

/-- SOURCE: pkg/io/epoll.go:84-102 -/
def notifyDeviceInterrupt [DecidableEq D] (d : D) (events : UInt32) (fds : D → FileDescriptor)
    (ep : Epoll D) : (D → FileDescriptor) × Epoll D :=
  if (ep.interestList (fds d).fd).isSome then
    (markReady d fds, (ep.pushReady d events).sendWake)
  else (fds, ep)

/-- Cutting off the first `maxEvents` events.
SOURCE: pkg/io/epoll.go:108-113, 122-127 -/
def takeReady (maxEvents : ℤ) (ep : Epoll D) : Option (List (EpollEvent D) × Epoll D) :=
  let count : ℤ := ep.readyList.length
  let count := if count > maxEvents then maxEvents else count
  if count < 0 then none
  else some (ep.readyList.take count.toNat,
    { ep with readyList := ep.readyList.drop count.toNat })

/-- SOURCE: pkg/io/epoll.go:105-135 -/
def epollWait (maxEvents : ℤ) (timedOut : Bool) (ep : Epoll D) :
    Option (List (EpollEvent D) × Epoll D) :=
  if ep.readyList.length > 0 then ep.takeReady maxEvents
  else if ep.wakeCh = true ∧ timedOut = false then
    { ep with wakeCh := false }.takeReady maxEvents
  else some ([], ep)

end Epoll

/-- An instance and the descriptors. -/
structure EpollSystem (D : Type*) where
  ep : Epoll D := {}
  fds : D → FileDescriptor

/-- One call, and for `EpollWait` the choice of its `select`. -/
inductive EpollCall (D : Type*) where
  | ctl (op : EpollCtlOp) (d : D) (event : Option (EpollEvent D))
  | notify (d : D) (events : UInt32)
  | wait (maxEvents : ℤ) (timedOut : Bool)

def EpollSystem.step {D : Type*} [DecidableEq D] (s : EpollSystem D) :
    EpollCall D → Option (EpollSystem D)
  | .ctl op d event => some { s with ep := (s.ep.epollCtl op (s.fds d) event).2 }
  | .notify d events =>
    let r := s.ep.notifyDeviceInterrupt d events s.fds
    some { ep := r.2, fds := r.1 }
  | .wait maxEvents timedOut =>
    (s.ep.epollWait maxEvents timedOut).map fun r => { s with ep := r.2 }

/-- A new instance beside the given descriptors, after the given calls. -/
def runEpoll {D : Type*} [DecidableEq D] (fds : D → FileDescriptor) (calls : List (EpollCall D)) :
    Option (EpollSystem D) :=
  calls.foldlM EpollSystem.step { fds }

end OsSimulator.Model
