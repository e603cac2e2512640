import OsSimulator.Model.AddressSpace
import OsSimulator.Model.Paging

/-!
# Unix processes (`pkg/kernel/process_lifecycle.go`)

The process table and the four calls `Fork`, `Exec`, `Exit` and `Wait`.  The maps of the
source are partial functions.  A PCB sits behind a pointer in the source; here it is
referred to by its PID, which is never issued twice, and `reaped` keeps the PCBs that
`Wait` has taken out of the table, for those who still point to one.

A call succeeds, returns an error, or panics (`Outcome`); with a panic comes the state that
the call has left behind.  PIDs and exit codes are unbounded integers, they become 64-bit
words where the source converts them.

* `UnixProcess`, `ProcessManager`, `newProcessManager`: pkg/kernel/process_lifecycle.go:12-74
* `fork`, `exec`, `exit`, `wait`: pkg/kernel/process_lifecycle.go:80-242
* `SyscallRegisters`: pkg/kernel/syscall.go:39-47
* `badge`: pkg/visualizer/ansi.go:129-131

Left out: the lock of the process manager (every call holds it from beginning to end) and
`RenderProcessTree`.
-/

set_option autoImplicit false

namespace OsSimulator.Model

inductive UnixProcessState where
  | ready
  | running
  | blocked
  | zombie
  | reaped
deriving DecidableEq, Repr

structure SyscallRegisters where
  rax : UInt64 := 0
  rdi : UInt64 := 0
  rsi : UInt64 := 0
  rdx : UInt64 := 0
  r10 : UInt64 := 0
  r8 : UInt64 := 0
  r9 : UInt64 := 0
deriving DecidableEq, Repr

/-- `addressSpace` is the nil pointer after `Exit`. -/
structure UnixProcess where
  pid : ℤ
  ppid : ℤ
  name : String
  state : UnixProcessState
  exitCode : ℤ := 0
  addressSpace : Option AddressSpace
  pageTable : PageTable
  registers : SyscallRegisters := {}
  openFDs : ℤ → Option String
  children : List ℤ := []

structure ProcessManager where
  processes : ℤ → Option UnixProcess
  reaped : ℤ → Option UnixProcess := fun _ => none
  nextPID : ℤ
  initPID : ℤ
  lifecycleLog : List String := []

/-- The process with PID 1. -/
def initProc : UnixProcess where
  pid := 1
  ppid := 0
  name := "init"
  state := .ready
  addressSpace := some (newAddressSpace 1 (64 * 1024) 0x00100000)
  pageTable := newPageTable 1 16 4096
  openFDs := fun fd =>
    if fd = 0 then some "stdin" else if fd = 1 then some "stdout"
    else if fd = 2 then some "stderr" else none

/-- SOURCE: pkg/kernel/process_lifecycle.go:51-74 -/
def newProcessManager : ProcessManager where
  processes := fun pid => if pid = 1 then some initProc else none
  nextPID := 2
  initPID := 1

/-! ## Errors -/

inductive ProcError where
  | noSuchProcess (pid : ℤ)
  | noChild (parentPID : ℤ)
  | terminateInit
  | wouldBlock
deriving DecidableEq, Repr

def ProcError.message : ProcError → String
  | noSuchProcess pid => "no such process (ESRCH): PID " ++ toString pid
  | noChild parentPID =>
    "no child processes (ECHILD): parent PID " ++ toString parentPID ++ " has no child processes"
  | terminateInit => "kernel panic: attempt to terminate init process (PID 1)"
  | wouldBlock => "EWOULDBLOCK: child processes are still running (parent must block)"

/-- What a call comes to. -/
inductive Outcome (α : Type) where
  | ok (value : α)
  | error (e : ProcError)
  | panic
deriving DecidableEq, Repr

def Outcome.map {α β : Type} (f : α → β) : Outcome α → Outcome β
  | ok value => ok (f value)
  | error e => error e
  | panic => panic

/-! ## The calls -/

/-- One round of the loop of `Fork` that copies the valid entries of the parent's page table;
`none` is a panic.  SOURCE: pkg/kernel/process_lifecycle.go:99-103 -/
def clonePage (childPID : ℤ) (childPT : PageTable) (page : PageTableEntry × ℕ) :
    Option PageTable :=
  let (entry, i) := page
  if entry.valid then
    childPT.mapPage (UInt64.ofNat i) (entry.pfn + UInt64.ofInt (childPID * 10)) entry.readWrite
  else some childPT

def clonePages (childPID : ℤ) (entries : List PageTableEntry) (childPT : PageTable) :
    Option PageTable :=
  entries.zipIdx.foldlM (clonePage childPID) childPT

/-- `Badge`, on yellow with bright white bold text. -/
def badge (text : String) : String := "\x1b[43m\x1b[97m\x1b[1m " ++ text ++ " \x1b[0m"

namespace ProcessManager

def modifyProcess (pid : ℤ) (f : UnixProcess → UnixProcess) (pm : ProcessManager) :
    ProcessManager :=
  { pm with processes := Function.update pm.processes pid ((pm.processes pid).map f) }

def log (logMsg : String) (pm : ProcessManager) : ProcessManager :=
  { pm with lifecycleLog := pm.lifecycleLog ++ [logMsg] }

/-- The child of `Fork`. -/
def forkedChild (childPID parentPID : ℤ) (parent : UnixProcess) (parentAS : AddressSpace)
    (childPT : PageTable) : UnixProcess where
  pid := childPID
  ppid := parentPID
  name := parent.name ++ "_child"
  state := .ready
  addressSpace := some (newAddressSpace childPID parentAS.totalSize
    (parentAS.physicalBase + UInt64.ofInt (childPID * 0x10000)))
  pageTable := childPT
  registers := { parent.registers with rax := 0 }
  openFDs := parent.openFDs

/-- The result is the child.  The PID is taken before the address space of the parent is
read.  SOURCE: pkg/kernel/process_lifecycle.go:80-133 -/
def fork (parentPID : ℤ) (pm : ProcessManager) : Outcome ℤ × ProcessManager :=
  match pm.processes parentPID with
  | none => (.error (.noSuchProcess parentPID), pm)
  | some parent =>
    let childPID := pm.nextPID
    let pm := { pm with nextPID := pm.nextPID + 1 }
    match parent.addressSpace with
    | none => (.panic, pm)
    | some parentAS =>
      match clonePages childPID parent.pageTable.entries (newPageTable childPID 16 4096) with
      | none => (.panic, pm)
      | some childPT =>
        let child := forkedChild childPID parentPID parent parentAS childPT
        let pm := pm.modifyProcess parentPID fun parent =>
          { parent with
            registers := { parent.registers with rax := UInt64.ofInt childPID }
            children := parent.children ++ [childPID] }
        let pm := { pm with
          processes := Function.update pm.processes childPID (some child) }
        (.ok childPID, pm.log
          s!"[FORK] Parent P{parentPID} ({parent.name}) cloned child P{childPID} -> Parent RAX={childPID}, Child RAX=0")

/-- The name is changed before the old address space is read.
SOURCE: pkg/kernel/process_lifecycle.go:136-163 -/
def exec (pid : ℤ) (binaryName : String) (args : List String) (pm : ProcessManager) :
    Outcome Unit × ProcessManager :=
  match pm.processes pid with
  | none => (.error (.noSuchProcess pid), pm)
  | some proc =>
    let oldName := proc.name
    let pm := pm.modifyProcess pid fun proc => { proc with name := binaryName }
    match proc.addressSpace with
    | none => (.panic, pm)
    | some oldAS =>
      match (newPageTable pid 16 4096).mapPage 0 (UInt64.ofInt (pid * 20)) true with
      | none => (.panic, pm)
      | some pageTable =>
        let pm := pm.modifyProcess pid fun proc =>
          { proc with
            addressSpace := some (newAddressSpace pid (64 * 1024) oldAS.physicalBase)
            pageTable
            registers := { proc.registers with
              rax := 0
              rdi := UInt64.ofNat args.length
              rsi := 0x00408000 } }
        (.ok (), pm.log
          s!"[EXEC] P{pid} replaced program image '{oldName}' ──► '{binaryName}' (Preserved PID {pid}, Reset Address Space)")

/-- One round of the loop of `Exit` that gives the children to init.
SOURCE: pkg/kernel/process_lifecycle.go:187-194 -/
def reparent (pid : ℤ) (pm : ProcessManager) (childPID : ℤ) : ProcessManager :=
  match pm.processes childPID with
  | none => pm
  | some _ =>
    let pm := pm.modifyProcess childPID fun child => { child with ppid := pm.initPID }
    let pm := pm.modifyProcess pm.initPID fun initProc =>
      { initProc with children := initProc.children ++ [childPID] }
    pm.log
      s!"[ORPHAN REPARENTED] Child P{childPID} adopted by init (PID 1) after parent P{pid} exited"

/-- SOURCE: pkg/kernel/process_lifecycle.go:166-204 -/
def exit (pid exitCode : ℤ) (pm : ProcessManager) : Outcome Unit × ProcessManager :=
  match pm.processes pid with
  | none => (.error (.noSuchProcess pid), pm)
  | some proc =>
    if pid = pm.initPID then (.error .terminateInit, pm)
    else
      let pm := pm.modifyProcess pid fun proc =>
        { proc with state := .zombie, exitCode, addressSpace := none }
      let pm :=
        if proc.children.length > 0 then
          (proc.children.foldl (reparent pid) pm).modifyProcess pid fun proc =>
            { proc with children := [] }
        else pm
      let badge := badge "ZOMBIE"
      (.ok (), pm.log
        s!"[EXIT] Process P{pid} ({proc.name}) exited with code {exitCode} ──► Entered {badge} state")

/-- The check of the loop of `Wait`. -/
def zombieAt (pm : ProcessManager) (childPID : ℤ) : Option UnixProcess :=
  (pm.processes childPID).filter fun child => child.state == .zombie

/-- The first zombie among the children is reaped; the result is its PID and exit code.
SOURCE: pkg/kernel/process_lifecycle.go:207-242 -/
def wait (parentPID : ℤ) (pm : ProcessManager) : Outcome (ℤ × ℤ) × ProcessManager :=
  match pm.processes parentPID with
  | none => (.error (.noSuchProcess parentPID), pm)
  | some parent =>
    if parent.children.length = 0 then (.error (.noChild parentPID), pm)
    else
      match parent.children.findSome? fun pid => (pm.zombieAt pid).map fun child => (pid, child) with
      | none => (.error .wouldBlock, pm)
      | some (childPID, child) =>
        let exitCode := child.exitCode
        let children := parent.children.eraseP fun pid => (pm.zombieAt pid).isSome
        let pm := { pm with
          processes := Function.update pm.processes childPID none
          reaped := Function.update pm.reaped childPID
            (some { child with state := .reaped }) }
        let pm := pm.modifyProcess parentPID fun parent => { parent with children }
        (.ok (childPID, exitCode), pm.log
          s!"[WAIT/REAP] Parent P{parentPID} reaped Zombie child P{childPID} (Exit Code: {exitCode}) ──► PCB destroyed")

end ProcessManager

/-! ## Sequences of calls -/

inductive ProcCall where
  | fork (parentPID : ℤ)
  | exec (pid : ℤ) (binaryName : String) (args : List String)
  | exit (pid exitCode : ℤ)
  | wait (parentPID : ℤ)
deriving DecidableEq, Repr

/-- What a successful call returns. -/
inductive ProcReply where
  | forked (childPID : ℤ)
  | done
  | reaped (pid exitCode : ℤ)
deriving DecidableEq, Repr

namespace ProcessManager

def call (c : ProcCall) (pm : ProcessManager) : Outcome ProcReply × ProcessManager :=
  match c with
  | .fork parentPID => (pm.fork parentPID).map (Outcome.map .forked) id
  | .exec pid binaryName args => (pm.exec pid binaryName args).map (Outcome.map fun _ => .done) id
  | .exit pid exitCode => (pm.exit pid exitCode).map (Outcome.map fun _ => .done) id
  | .wait parentPID => (pm.wait parentPID).map (Outcome.map fun r => .reaped r.1 r.2) id

/-- The outcomes of a sequence of calls and the state after it.  A call that panics leaves
its state behind, as in a program that recovers from the panic. -/
def runCalls : List ProcCall → ProcessManager → List (Outcome ProcReply) × ProcessManager
  | [], pm => ([], pm)
  | c :: calls, pm =>
    let first := pm.call c
    let rest := runCalls calls first.2
    (first.1 :: rest.1, rest.2)

/-- `Sbrk` on the address space of a process, which its user reaches through the PCB.
SOURCE: pkg/memory/address_space.go:114-128 -/
def sbrk (pid : ℤ) (increment : Int64) (pm : ProcessManager) : ProcessManager :=
  pm.modifyProcess pid fun proc =>
    { proc with addressSpace := proc.addressSpace.map fun as => (as.sbrk increment).2 }

end ProcessManager

/-- A call on the process manager, or on the address space of one of its processes. -/
inductive SpaceCall where
  | proc (c : ProcCall)
  | sbrk (pid : ℤ) (increment : Int64)
deriving DecidableEq

namespace ProcessManager

def spaceCall (c : SpaceCall) (pm : ProcessManager) : ProcessManager :=
  match c with
  | .proc c => (pm.call c).2
  | .sbrk pid increment => pm.sbrk pid increment

def runSpaceCalls (calls : List SpaceCall) (pm : ProcessManager) : ProcessManager :=
  calls.foldl (fun pm c => pm.spaceCall c) pm

end ProcessManager

end OsSimulator.Model
