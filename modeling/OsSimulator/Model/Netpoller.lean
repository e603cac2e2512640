import OsSimulator.Model.Epoll
import OsSimulator.Library.EventRun

/-!
# The network poller (`pkg/io/netpoller.go`)

Any number of threads call `ReadNonBlocking` and `PollAndWakeup` on one `GoNetpoller`, while data
arrives on descriptors and device interrupts are delivered.  The readiness test of
`ReadNonBlocking`, its section under `np.mu` and its registration with epoll are separate steps, as
are `EpollWait` and the section under `np.mu` of `PollAndWakeup`; steps interleave in any order.

A goroutine is known by its channel, since neither `gid` nor the descriptor is unique; channels are
numbered in the order in which they are made.  The two totals are unbounded.

* `test`, `park`, `register`: pkg/io/netpoller.go:44-72
* `wait`, `wake`: pkg/io/netpoller.go:75-93

Left out: the time at which a goroutine was parked, which nothing reads.
-/

set_option autoImplicit false

namespace OsSimulator.Model

structure NetpollerGoroutine where
  gid : ℤ
  fd : ℤ
  wakeCh : ℕ
deriving DecidableEq, Repr

structure GoNetpoller (D : Type*) where
  epollInstance : Epoll D := {}
  parkedGs : ℤ → Option NetpollerGoroutine := fun _ => none
  totalParked : ℕ := 0
  totalWoken : ℕ := 0

namespace GoNetpoller

variable {D : Type*}

/-- SOURCE: pkg/io/netpoller.go:54-63 -/
def park (gid : ℤ) (fd : FileDescriptor) (np : GoNetpoller D) : GoNetpoller D :=
  { np with
    totalParked := np.totalParked + 1
    parkedGs := Function.update np.parkedGs fd.fd
      (some { gid, fd := fd.fd, wakeCh := np.totalParked }) }

/-- The registration with epoll; its error is ignored.
SOURCE: pkg/io/netpoller.go:66-69 -/
def register (d : D) (fd : FileDescriptor) (np : GoNetpoller D) : GoNetpoller D :=
  { np with
    epollInstance := (np.epollInstance.epollCtl .add fd (some { events := epollIn, fd := d })).2 }

/-- The loop body of `PollAndWakeup`; the second component is `wokenGs`.
SOURCE: pkg/io/netpoller.go:82-88 -/
def wakeEvent (fds : D → FileDescriptor) (r : GoNetpoller D × List NetpollerGoroutine)
    (ev : EpollEvent D) : GoNetpoller D × List NetpollerGoroutine :=
  match r.1.parkedGs (fds ev.fd).fd with
  | none => r
  | some parked =>
    ({ r.1 with
        totalWoken := r.1.totalWoken + 1
        parkedGs := Function.update r.1.parkedGs (fds ev.fd).fd none
        epollInstance := (r.1.epollInstance.epollCtl .del (fds ev.fd) none).2 },
      r.2 ++ [parked])

/-- SOURCE: pkg/io/netpoller.go:78-92 -/
def wakeEvents (fds : D → FileDescriptor) (events : List (EpollEvent D)) (np : GoNetpoller D) :
    GoNetpoller D × List NetpollerGoroutine :=
  events.foldl (wakeEvent fds) (np, [])

end GoNetpoller

/-- Where a thread is. -/
inductive NetpollPc (D : Type*) where
  | idle
  /-- in `ReadNonBlocking(gid, d)`, past the readiness test -/
  | parking (gid : ℤ) (d : D)
  /-- in `ReadNonBlocking`, parked, before the registration -/
  | registering (d : D) (wakeCh : ℕ)
  /-- in `PollAndWakeup`, with the events `EpollWait` returned -/
  | polled (events : List (EpollEvent D))

/-- A call of a thread, a thread that goes on in its call, and what the device does. -/
inductive NetpollMove (D T : Type*) where
  | read (t : T) (gid : ℤ) (d : D)
  /-- the flag is the choice of the `select` in `EpollWait` -/
  | poll (t : T) (timedOut : Bool)
  | resume (t : T)
  /-- `fd.DataBuffer = data` -/
  | arrive (d : D) (data : List UInt8)
  | interrupt (d : D) (events : UInt32)

/-- What a call returns. -/
inductive NetpollReport where
  /-- `ReadNonBlocking` returns data and true -/
  | returned (data : List UInt8)
  /-- `ReadNonBlocking` returns nil and false -/
  | blocked (wakeCh : ℕ)
  /-- the list `PollAndWakeup` returns -/
  | woken (wokenGs : List NetpollerGoroutine)
deriving DecidableEq, Repr

/-- The poller, the descriptors and all threads. -/
structure Netpoll (D T : Type*) where
  np : GoNetpoller D := {}
  fds : D → FileDescriptor
  pc : T → NetpollPc D := fun _ => .idle

namespace Netpoll

variable {D T : Type*} [DecidableEq D] [DecidableEq T]

/-- SOURCE: pkg/io/netpoller.go:46-51 -/
def test (t : T) (gid : ℤ) (d : D) (s : Netpoll D T) : Netpoll D T × List NetpollReport :=
  if (s.fds d).isReady = true ∧ (s.fds d).dataBuffer.length > 0 then
    ({ s with fds := Function.update s.fds d { s.fds d with dataBuffer := [], isReady := false } },
      [.returned (s.fds d).dataBuffer])
  else ({ s with pc := Function.update s.pc t (.parking gid d) }, [])

def park (t : T) (gid : ℤ) (d : D) (s : Netpoll D T) : Netpoll D T × List NetpollReport :=
  ({ s with
      np := s.np.park gid (s.fds d)
      pc := Function.update s.pc t (.registering d s.np.totalParked) }, [])

def register (t : T) (d : D) (wakeCh : ℕ) (s : Netpoll D T) :
    Netpoll D T × List NetpollReport :=
  ({ s with np := s.np.register d (s.fds d), pc := Function.update s.pc t .idle },
    [.blocked wakeCh])

/-- SOURCE: pkg/io/netpoller.go:76 -/
def wait (t : T) (timedOut : Bool) (s : Netpoll D T) : Netpoll D T × List NetpollReport :=
  match s.np.epollInstance.epollWait 64 timedOut with
  | none => (s, [])
  | some (events, ep) =>
    ({ s with
        np := { s.np with epollInstance := ep }
        pc := Function.update s.pc t (.polled events) }, [])

def wake (t : T) (events : List (EpollEvent D)) (s : Netpoll D T) :
    Netpoll D T × List NetpollReport :=
  ({ s with
      np := (s.np.wakeEvents s.fds events).1
      pc := Function.update s.pc t .idle }, [.woken (s.np.wakeEvents s.fds events).2])

def arrive (d : D) (data : List UInt8) (s : Netpoll D T) : Netpoll D T :=
  { s with fds := Function.update s.fds d { s.fds d with dataBuffer := data } }

/-- `np.EpollInstance.NotifyDeviceInterrupt` -/
def interrupt (d : D) (events : UInt32) (s : Netpoll D T) : Netpoll D T :=
  { s with
    np := { s.np with
      epollInstance := (s.np.epollInstance.notifyDeviceInterrupt d events s.fds).2 }
    fds := (s.np.epollInstance.notifyDeviceInterrupt d events s.fds).1 }

/-- One step; a move that is not possible where its thread is does nothing. -/
def step (move : NetpollMove D T) (s : Netpoll D T) : Netpoll D T × List NetpollReport :=
  match move with
  | .read t gid d =>
    match s.pc t with
    | .idle => s.test t gid d
    | _ => (s, [])
  | .poll t timedOut =>
    match s.pc t with
    | .idle => s.wait t timedOut
    | _ => (s, [])
  | .resume t =>
    match s.pc t with
    | .idle => (s, [])
    | .parking gid d => s.park t gid d
    | .registering d wakeCh => s.register t d wakeCh
    | .polled events => s.wake t events
  | .arrive d data => (s.arrive d data, [])
  | .interrupt d events => (s.interrupt d events, [])

end Netpoll

/-- A new poller beside the given descriptors, after the given steps, with all reports. -/
def runNetpoll {D T : Type*} [DecidableEq D] [DecidableEq T] (fds : D → FileDescriptor)
    (schedule : List (NetpollMove D T)) : Netpoll D T × List NetpollReport :=
  Library.eventRun Netpoll.step { fds } schedule

end OsSimulator.Model
