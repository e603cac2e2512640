import OsSimulator.Model.ProcessLifecycle
import OsSimulator.Model.Scheduler

/-!
# The kernel (`pkg/kernel/os_kernel.go`)

The part of the unified kernel that runs processes: its clock, one of the six CPU schedulers,
the process table and the pointer to the running process.  The scheduler and the process table
keep separate records of a process, which only share the PID.

`runningProcess` is a pointer to a PCB, that is, its PID; the PCB is in the table or has been
reaped (`pcb`).

* `HardwareCPU`, `newHardwareCPU`: pkg/kernel/cpu_mode.go:15-68
* `OSKernel`, `newOSKernel`, `step`: pkg/kernel/os_kernel.go:13-87

Left out: the fields that `Step` does not use (context switcher, system calls, traps, memory
manager, shared memory, pipes), the lock, `TriggerSyscall` and `RenderDashboard`.
-/

set_option autoImplicit false

namespace OsSimulator.Model

inductive CPUMode where
  | kernel
  | user
deriving DecidableEq, Repr

structure HardwareCPU where
  currentMode : CPUMode
  userRSP : UInt64
  kernelRSP : UInt64
  programCounter : UInt64
  cr3 : UInt64
  interruptsOn : Bool
  executionLog : List String := []

def newHardwareCPU : HardwareCPU where
  currentMode := .user
  userRSP := 0x7FFFFFFF
  kernelRSP := 0xFFFFFFFF
  programCounter := 0x00400000
  cr3 := 0x00100000
  interruptsOn := true

structure OSKernel where
  cpu : HardwareCPU := newHardwareCPU
  scheduler : Scheduler
  procManager : ProcessManager := newProcessManager
  runningProcess : Option ℤ
  currentTick : ℤ := 0
  eventHistory : List String := []

/-- `none` is the nil scheduler.  SOURCE: pkg/kernel/os_kernel.go:30-53 -/
def newOSKernel (sched : Option Scheduler) : OSKernel :=
  let sched := sched.getD (.rr (newRRScheduler 2))
  { scheduler := sched.addProcess (newProcess 1 "init" 0 100)
    runningProcess := (newProcessManager.processes 1).map UnixProcess.pid }

/-- The verb `%08X`. -/
def upperHex8 (v : UInt64) : String :=
  let digits := upperHex v
  String.ofList (List.replicate (8 - digits.length) '0') ++ digits

/-- The PCB that a pointer leads to. -/
def ProcessManager.pcb (pm : ProcessManager) (pid : ℤ) : Option UnixProcess :=
  (pm.processes pid).or (pm.reaped pid)

namespace OSKernel

/-- The name of the running process in the log of a context switch. -/
def oldProcName (k : OSKernel) : String :=
  match k.runningProcess with
  | none => "IDLE"
  | some pid => s!"P{pid}(" ++ (k.procManager.pcb pid).elim "" UnixProcess.name ++ ")"

/-- The result is the message that is also logged.  SOURCE: pkg/kernel/os_kernel.go:56-87 -/
def step (k : OSKernel) : String × OSKernel :=
  let k := { k with currentTick := k.currentTick + 1 }
  let schedProc := (k.scheduler.tickResult k.currentTick).1
  let k := { k with scheduler := k.scheduler.tick k.currentTick }
  let (logMsg, k) :=
    match schedProc.map k.scheduler.base.proc with
    | some schedProc =>
      if k.runningProcess ≠ some schedProc.pid then
        let logMsg := s!"[Tick {k.currentTick}] Context Switch: " ++ k.oldProcName ++
          s!" ──► P{schedProc.pid}({schedProc.name}) | Scheduler: " ++ k.scheduler.name
        (logMsg, { k with
          runningProcess := (k.procManager.processes schedProc.pid).map UnixProcess.pid })
      else
        let logMsg := s!"[Tick {k.currentTick}] Executing P{schedProc.pid}({schedProc.name})" ++
          " in User Mode (PC: 0x" ++ upperHex8 k.cpu.programCounter ++ ")"
        (logMsg, { k with
          cpu := { k.cpu with programCounter := k.cpu.programCounter + 4 } })
    | none => (s!"[Tick {k.currentTick}] CPU Idle (No runnable processes)", k)
  (logMsg, { k with eventHistory := k.eventHistory ++ [logMsg] })

end OSKernel

/-! ## Interleavings -/

/-- A call on the kernel, on its scheduler or on its process manager. -/
inductive KernelAction where
  | step
  /-- `Scheduler.AddProcess(NewProcess(pid, name, arrivalTime, burstTime))` -/
  | addProcess (pid : ℤ) (name : String) (arrivalTime burstTime : ℤ)
  | procCall (c : ProcCall)
deriving DecidableEq, Repr

namespace OSKernel

def act (k : OSKernel) : KernelAction → OSKernel
  | .step => k.step.2
  | .addProcess pid name arrivalTime burstTime =>
    { k with scheduler := k.scheduler.addProcess (newProcess pid name arrivalTime burstTime) }
  | .procCall c => { k with procManager := (k.procManager.call c).2 }

/-- The state after a sequence of calls. -/
def run (k : OSKernel) (actions : List KernelAction) : OSKernel := actions.foldl act k

end OSKernel

end OsSimulator.Model
