import OsSimulator.Model.CpuMode

/-!
# System calls (`pkg/kernel/syscall.go`)

The dispatch table of the system calls with its default handlers, and the entry through the
kernel, `TriggerSyscall`.  The registers and the returned values are 64-bit words; so is the PID,
a Go `int`, because `getpid` returns it.

A handler may change the registers it is given; it returns a value and an error.

* `toErrno`, the errors, `SyscallEntry`, `SyscallDispatcher`: pkg/kernel/syscall.go:27-67
* `newSyscallDispatcher`, `register`: pkg/kernel/syscall.go:69-102
* `validateUserPointer`, `dispatch`: pkg/kernel/syscall.go:104-138
* the default handlers: pkg/kernel/syscall.go:180-242
* `triggerSyscall`: pkg/kernel/os_kernel.go:90-122

`SyscallRegisters` is that of `Model.ProcessLifecycle`.  Left out: `RenderSyscallTable` and the
signatures and descriptions of the entries, which only it reads.
-/

set_option autoImplicit false

namespace OsSimulator.Model

/-! ## Numbers and errors -/

def sysFork : Int64 := 1
def sysExec : Int64 := 2
def sysWait : Int64 := 3
def sysExit : Int64 := 4
def sysRead : Int64 := 5
def sysWrite : Int64 := 6
def sysPipe : Int64 := 7
def sysShmGet : Int64 := 8
def sysShmAttach : Int64 := 9
def sysSbrk : Int64 := 11
def sysYield : Int64 := 12
def sysGetPID : Int64 := 13

def toErrno (err : Int64) : UInt64 := (-err).toUInt64

inductive SyscallError where
  | invalidSyscall (num : Int64)
  /-- `ErrBadUserPointer` from `ValidateUserPointer` -/
  | badPointer (vAddr size kernelBase : UInt64)
  /-- `ErrBadUserPointer` from the handlers of `read` and `write` -/
  | badBuffer (bufPtr : UInt64)
  /-- the error of some other handler -/
  | other (message : String)
deriving DecidableEq, Repr

namespace SyscallError

def errBadUserPointer : String :=
  "bad address (EFAULT): user pointer points to protected kernel address space"

def message : SyscallError → String
  | invalidSyscall num =>
    "invalid syscall: unknown syscall number: Syscall #" ++ toString num
  | badPointer vAddr size kernelBase =>
    errBadUserPointer ++ ": pointer 0x" ++ upperHex8 vAddr ++ " (size " ++ toString size ++
      ") touches kernel space (>= 0x" ++ upperHex8 kernelBase ++ ")"
  | badBuffer bufPtr =>
    errBadUserPointer ++ ": buffer pointer 0x" ++ upperHex bufPtr ++ " in kernel space"
  | other message => message

/-- `errors.Is(err, ErrBadUserPointer)`. -/
def isBadUserPointer : SyscallError → Bool
  | badPointer .. | badBuffer .. => true
  | _ => false

end SyscallError

/-! ## The dispatcher -/

/-- The value and the error that a handler returns, and the registers it leaves. -/
def SyscallHandlerFunc : Type :=
  Int64 → SyscallRegisters → (Int64 × Option SyscallError) × SyscallRegisters

structure SyscallEntry where
  number : Int64
  name : String
  handler : SyscallHandlerFunc
  totalCalls : ℕ := 0

structure SyscallDispatcher where
  table : Int64 → Option SyscallEntry := fun _ => none
  kernelBase : UInt64
  callHistory : List String := []

namespace SyscallDispatcher

def register (num : Int64) (name : String) (handler : SyscallHandlerFunc)
    (sd : SyscallDispatcher) : SyscallDispatcher :=
  { sd with
    table := fun n => if n = num then some { number := num, name, handler } else sd.table n }

/-- The sum is that of 64-bit words.  SOURCE: pkg/kernel/syscall.go:104-109 -/
def validateUserPointer (vAddr size : UInt64) (sd : SyscallDispatcher) : Option SyscallError :=
  if vAddr + size > sd.kernelBase ∨ vAddr ≥ sd.kernelBase then
    some (.badPointer vAddr size sd.kernelBase)
  else none

/-- The call is counted in the entry. -/
def countCall (num : Int64) (entry : SyscallEntry) (sd : SyscallDispatcher) : SyscallDispatcher :=
  { sd with
    table := fun n =>
      if n = num then some { entry with totalCalls := entry.totalCalls + 1 } else sd.table n }

def log (logEntry : String) (sd : SyscallDispatcher) : SyscallDispatcher :=
  { sd with callHistory := sd.callHistory ++ [logEntry] }

/-- The result is the returned value and error, the registers and the dispatcher.
SOURCE: pkg/kernel/syscall.go:112-138 -/
def dispatch (pid : Int64) (regs : SyscallRegisters) (sd : SyscallDispatcher) :
    (Int64 × Option SyscallError) × SyscallRegisters × SyscallDispatcher :=
  let syscallNum := regs.rax.toInt64
  match sd.table syscallNum with
  | none => ((-1, some (.invalidSyscall syscallNum)), { regs with rax := toErrno 1 }, sd)
  | some entry =>
    let sd := sd.countCall syscallNum entry
    match entry.handler pid regs with
    | ((retVal, some err), regs) =>
      let regs := { regs with rax := toErrno 22 }
      ((retVal, some err), regs, sd.log
        ("[PID " ++ toString pid ++ "] syscall " ++ entry.name ++ "(" ++ toString regs.rdi ++
          ", 0x" ++ upperHex regs.rsi ++ ", 0x" ++ upperHex regs.rdx ++ ") ──► ERROR: " ++
          err.message))
    | ((retVal, none), regs) =>
      let regs := { regs with rax := retVal.toUInt64 }
      ((retVal, none), regs, sd.log
        ("[PID " ++ toString pid ++ "] syscall " ++ entry.name ++ "(arg1:0x" ++
          upperHex regs.rdi ++ ", arg2:0x" ++ upperHex regs.rsi ++ ", arg3:0x" ++
          upperHex regs.rdx ++ ") ──► return: " ++ toString retVal ++
          " (" ++ green "OK" ++ ")"))

end SyscallDispatcher

/-! ## The default handlers -/

/-- The handlers that return a constant. -/
def constantHandler (retVal : Int64) : SyscallHandlerFunc := fun _ regs => ((retVal, none), regs)

/-- The handlers that check the start of a user buffer and claim to have transferred all of it. -/
def bufferHandler : SyscallHandlerFunc := fun _ regs =>
  let bufPtr := regs.rsi
  let count := regs.rdx
  if bufPtr ≥ 0xC0000000 then ((-14, some (.badBuffer bufPtr)), regs)
  else ((count.toInt64, none), regs)

def defaultGetPID : SyscallHandlerFunc := fun pid regs => ((pid, none), regs)
def defaultYield : SyscallHandlerFunc := constantHandler 0
def defaultWrite : SyscallHandlerFunc := bufferHandler
def defaultRead : SyscallHandlerFunc := bufferHandler
def defaultSbrk : SyscallHandlerFunc := constantHandler 0x00020000
def defaultExit : SyscallHandlerFunc := constantHandler 0
def defaultFork : SyscallHandlerFunc := constantHandler 1001
def defaultExec : SyscallHandlerFunc := constantHandler 0
def defaultWait : SyscallHandlerFunc := constantHandler 1001
def defaultPipe : SyscallHandlerFunc := constantHandler 0
def defaultShmGet : SyscallHandlerFunc := constantHandler 42
def defaultShmAttach : SyscallHandlerFunc := constantHandler 0x00300000

/-- SOURCE: pkg/kernel/syscall.go:69-92 -/
def newSyscallDispatcher : SyscallDispatcher :=
  let sd : SyscallDispatcher := { kernelBase := 0xC0000000 }
  let sd := sd.register sysGetPID "getpid" defaultGetPID
  let sd := sd.register sysYield "sched_yield" defaultYield
  let sd := sd.register sysWrite "write" defaultWrite
  let sd := sd.register sysRead "read" defaultRead
  let sd := sd.register sysSbrk "sbrk" defaultSbrk
  let sd := sd.register sysExit "exit" defaultExit
  let sd := sd.register sysFork "fork" defaultFork
  let sd := sd.register sysExec "execve" defaultExec
  let sd := sd.register sysWait "waitpid" defaultWait
  let sd := sd.register sysPipe "pipe" defaultPipe
  let sd := sd.register sysShmGet "shmget" defaultShmGet
  sd.register sysShmAttach "shmat" defaultShmAttach

/-! ## The kernel's entry -/

/-- The kernel with its dispatcher. -/
structure SyscallKernel extends OSKernel where
  syscalls : SyscallDispatcher := newSyscallDispatcher

namespace SyscallKernel

/-- The result is the returned value and the message that is also logged.
SOURCE: pkg/kernel/os_kernel.go:90-122 -/
def triggerSyscall (pid syscallNum : Int64) (args : Vector UInt64 6) (k : SyscallKernel) :
    (Int64 × String) × SyscallKernel :=
  let regs : SyscallRegisters :=
    { rax := syscallNum.toUInt64
      rdi := args[0], rsi := args[1], rdx := args[2], r10 := args[3], r8 := args[4], r9 := args[5] }
  let k := { k with cpu := k.cpu.switchToKernelMode 0x80 }
  let ((ret, err), _, syscalls) := k.syscalls.dispatch pid regs
  let k := { k with syscalls, cpu := k.cpu.returnToUserMode }
  let status := match err with
    | none => green "SUCCESS"
    | some err => red ("ERROR: " ++ err.message)
  let msg := "[SYSCALL TRAP] PID " ++ toString pid ++ " executed Syscall #" ++
    toString syscallNum ++ " -> Return: " ++ toString ret ++ " (" ++ status ++ ")"
  ((ret, msg), { k with eventHistory := k.eventHistory ++ [msg] })

end SyscallKernel

end OsSimulator.Model
