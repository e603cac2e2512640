import OsSimulator.Model.Kernel

/-!
# The dual-mode CPU (`pkg/kernel/cpu_mode.go`)

The instructions of the simulated CPU and its three methods.  Whether an instruction is
privileged is a flag of the instruction; what it does is decided by its opcode.

* `InstructionType`, `CPUInstruction`: pkg/kernel/cpu_mode.go:31-50
* `executeInstruction`, `switchToKernelMode`, `returnToUserMode`: pkg/kernel/cpu_mode.go:75-123
* `green`, `red`: pkg/visualizer/ansi.go:47-55

`HardwareCPU` and `newHardwareCPU` are those of `Model.Kernel`.  Left out:
`RenderModeComparison`.
-/

set_option autoImplicit false

namespace OsSimulator.Model

def green (text : String) : String := "\x1b[32m" ++ text ++ "\x1b[0m"

def red (text : String) : String := "\x1b[31m" ++ text ++ "\x1b[0m"

/-- The verb `%X` of a Go `int`. -/
def upperHexInt (v : ℤ) : String :=
  (if v < 0 then "-" else "") ++
    String.ofList ((Nat.toDigits 16 v.natAbs).map Char.toUpper)

/-- `String()`. -/
def CPUMode.text : CPUMode → String
  | kernel => "KERNEL_MODE (Ring 0)"
  | user => "USER_MODE (Ring 3)"

/-! ## Instructions -/

/-- The source's type is a string type with eight constants; `other` is any other string. -/
inductive InstructionType where
  | userArithmetic
  | userBranch
  | syscall
  | privilegedHalt
  | privilegedCLI
  | privilegedSTI
  | privilegedSetCR3
  | privilegedPortIO
  | other (text : String)
deriving DecidableEq, Repr

namespace InstructionType

def text : InstructionType → String
  | userArithmetic => "USER_ARITHMETIC"
  | userBranch => "USER_BRANCH"
  | syscall => "SYSCALL_TRAP"
  | privilegedHalt => "PRIV_HLT"
  | privilegedCLI => "PRIV_CLI"
  | privilegedSTI => "PRIV_STI"
  | privilegedSetCR3 => "PRIV_MOV_CR3"
  | privilegedPortIO => "PRIV_PORT_IO"
  | other text => text

/-- The opcodes whose text starts with `PRIV_`. -/
def isPriv : InstructionType → Bool
  | privilegedHalt | privilegedCLI | privilegedSTI | privilegedSetCR3 | privilegedPortIO => true
  | _ => false

end InstructionType

structure CPUInstruction where
  opcode : InstructionType
  description : String
  isPrivileged : Bool
deriving DecidableEq, Repr

/-- `ErrPrivilegeViolation`, wrapped with the opcode. -/
inductive CPUError where
  | privilegeViolation (opcode : InstructionType)
deriving DecidableEq, Repr

def CPUError.message : CPUError → String
  | privilegeViolation opcode =>
    "privilege violation: user mode cannot execute privileged CPU instructions" ++
      ": attempt to execute '" ++ opcode.text ++ "' in User Mode (Ring 3)"

/-! ## The CPU -/

namespace HardwareCPU

def log (line : String) (cpu : HardwareCPU) : HardwareCPU :=
  { cpu with executionLog := cpu.executionLog ++ [line] }

/-- SOURCE: pkg/kernel/cpu_mode.go:104-113 -/
def switchToKernelMode (vector : ℤ) (cpu : HardwareCPU) : HardwareCPU :=
  if cpu.currentMode = .kernel then cpu
  else { cpu with currentMode := .kernel }.log
    ("[HARDWARE TRAP 0x" ++ upperHexInt vector ++
      "] Privilege Switch: Ring 3 ──► Ring 0 | Swapped RSP: User(0x" ++ upperHex cpu.userRSP ++
      ") ──► Kernel(0x" ++ upperHex cpu.kernelRSP ++ ")")

/-- SOURCE: pkg/kernel/cpu_mode.go:116-123 -/
def returnToUserMode (cpu : HardwareCPU) : HardwareCPU :=
  if cpu.currentMode = .user then cpu
  else { cpu with currentMode := .user }.log
    ("[SYSRET/IRET] Privilege Switch: Ring 0 ──► Ring 3 | Restored RSP: 0x" ++
      upperHex cpu.userRSP)

/-- The `switch` on the opcode. -/
def effect (opcode : InstructionType) (cpu : HardwareCPU) : HardwareCPU :=
  match opcode with
  | .privilegedCLI => { cpu with interruptsOn := false }
  | .privilegedSTI => { cpu with interruptsOn := true }
  | .privilegedSetCR3 => { cpu with cr3 := 0x00200000 }
  | .syscall => cpu.switchToKernelMode 0x80
  | _ => cpu

/-- SOURCE: pkg/kernel/cpu_mode.go:75-101 -/
def executeInstruction (inst : CPUInstruction) (cpu : HardwareCPU) :
    Option CPUError × HardwareCPU :=
  let logMsg := "[" ++ cpu.currentMode.text ++ "] PC:0x" ++ upperHex8 cpu.programCounter ++
    " -> Executing: " ++ inst.opcode.text ++ " (" ++ inst.description ++ ")"
  if inst.isPrivileged ∧ cpu.currentMode = .user then
    (some (.privilegeViolation inst.opcode),
      cpu.log (logMsg ++ " ──► " ++ red "HARDWARE TRAP: PRIVILEGE VIOLATION (#GP)!"))
  else
    let cpu := cpu.effect inst.opcode
    let cpu := { cpu with programCounter := cpu.programCounter + 4 }
    (none, cpu.log (logMsg ++ " ──► " ++ green "SUCCESS"))

end HardwareCPU

/-! ## Sequences of calls -/

inductive CPUCall where
  | executeInstruction (inst : CPUInstruction)
  | switchToKernelMode (vector : ℤ)
  | returnToUserMode
deriving DecidableEq, Repr

namespace HardwareCPU

/-- The error that the call returns, if it returns one, and the CPU after it. -/
def call (c : CPUCall) (cpu : HardwareCPU) : Option CPUError × HardwareCPU :=
  match c with
  | .executeInstruction inst => cpu.executeInstruction inst
  | .switchToKernelMode vector => (none, cpu.switchToKernelMode vector)
  | .returnToUserMode => (none, cpu.returnToUserMode)

/-- The CPU after a sequence of calls. -/
def run (cpu : HardwareCPU) (calls : List CPUCall) : HardwareCPU :=
  calls.foldl (fun cpu c => (cpu.call c).2) cpu

end HardwareCPU

end OsSimulator.Model
