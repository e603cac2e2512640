import OsSimulator.Model.CpuMode

/-!
# The trap table (`pkg/kernel/trap_table.go`)

The interrupt descriptor table and `DispatchTrap`.  A handler is a Go function that is given
the CPU and the context of its trap.  Here it is the tree of the calls that it makes
(`HandlerBody`): each node is one call or assignment, and what follows may depend on what the
call returned and on the CPU after it.  A handler may dispatch further traps from the same
table and may register handlers.

A nested `DispatchTrap` runs a handler of the table, so the recursion is not bounded by the
size of a handler.  `dispatchTrap depth` allows `depth` traps inside one another; it is `none`
when this is not enough, and otherwise does not depend on `depth`.

* `TrapType`, `TrapContext`, `TrapDescriptor`, `TrapTable`: pkg/kernel/trap_table.go:10-48
* `newTrapTable`, `registerHandler`, `dispatchTrap`: pkg/kernel/trap_table.go:50-121
* the default handlers: pkg/kernel/trap_table.go:123-134

Left out: `RenderIDT`, and the descriptions of the descriptors, which only it reads.
-/

set_option autoImplicit false

namespace OsSimulator.Model

/-- The source's type is a string type with three constants; `other` is any other string. -/
inductive TrapType where
  | syscall
  | exception
  | interrupt
  | other (text : String)
deriving DecidableEq, Repr

structure TrapContext where
  vector : ℤ
  type : TrapType
  name : String
  savedPC : UInt64
  savedRSP : UInt64
  savedFlags : UInt64 := 0
  errorCode : UInt64 := 0
  syscallNum : ℤ
  args : Vector UInt64 6
  returnValue : UInt64 := 0
deriving DecidableEq, Repr

inductive TrapError where
  | unhandled (vector : ℤ)
deriving DecidableEq, Repr

/-- The verb `%02X` of a Go `int`. -/
def upperHexInt2 (v : ℤ) : String :=
  let digits := upperHexInt v
  if digits.length < 2 then "0" ++ digits else digits

def TrapError.message : TrapError → String
  | unhandled vector =>
    "unhandled trap vector 0x" ++ upperHexInt2 vector ++ ": no ISR registered in IDT"

/-! ## Handlers -/

inductive HandlerBody where
  | finish (status : ℤ) (err : Option String)
  /-- A method of the CPU. -/
  | call (c : CPUCall) (next : Option CPUError → HardwareCPU → HandlerBody)
  /-- Assignments to the fields of the CPU. -/
  | assign (update : HardwareCPU → HardwareCPU) (next : HardwareCPU → HandlerBody)
  /-- Assignments to the fields of the context. -/
  | assignContext (ctx : TrapContext) (next : HandlerBody)
  | dispatchTrap (vector syscallNum : ℤ) (args : Vector UInt64 6)
      (next : Except TrapError TrapContext → HardwareCPU → HandlerBody)
  | registerHandler (vector : ℤ) (name : String) (type : TrapType)
      (handler : HardwareCPU → TrapContext → HandlerBody) (next : HandlerBody)

/-- What a handler does with the CPU and the context it is given. -/
def TrapHandlerFunc : Type := HardwareCPU → TrapContext → HandlerBody

/-- `handler` is `none` for the nil function. -/
structure TrapDescriptor where
  vector : ℤ
  name : String
  type : TrapType
  handler : Option TrapHandlerFunc
  count : ℕ := 0

structure TrapTable where
  descriptors : ℤ → Option TrapDescriptor := fun _ => none
  history : List TrapContext := []

/-- SOURCE: pkg/kernel/trap_table.go:75-83 -/
def TrapTable.registerHandler (vector : ℤ) (name : String) (type : TrapType)
    (handler : Option TrapHandlerFunc) (tt : TrapTable) : TrapTable :=
  { tt with
    descriptors := fun v =>
      if v = vector then some { vector, name, type, handler } else tt.descriptors v }

/-- The CPU and the table that a trap works on. -/
structure TrapMachine where
  cpu : HardwareCPU
  traps : TrapTable

/-- The result of `DispatchTrap`, and what it leaves behind. -/
abbrev TrapReturn := Except TrapError TrapContext × TrapMachine

/-- A handler that runs to its end; `dispatch` is the nested `DispatchTrap`. -/
def HandlerBody.run (dispatch : ℤ → ℤ → Vector UInt64 6 → TrapMachine → Option TrapReturn) :
    HandlerBody → TrapContext → TrapMachine → Option (TrapContext × TrapMachine)
  | finish _ _, ctx, m => some (ctx, m)
  | call c next, ctx, m =>
    let r := m.cpu.call c
    (next r.1 r.2).run dispatch ctx { m with cpu := r.2 }
  | assign update next, ctx, m =>
    let cpu := update m.cpu
    (next cpu).run dispatch ctx { m with cpu }
  | assignContext ctx next, _, m => next.run dispatch ctx m
  | dispatchTrap vector syscallNum args next, ctx, m =>
    match dispatch vector syscallNum args m with
    | none => none
    | some (r, m) => (next r m.cpu).run dispatch ctx m
  | registerHandler vector name type handler next, ctx, m =>
    next.run dispatch ctx
      { m with traps := m.traps.registerHandler vector name type (some handler) }

/-! ## Dispatch -/

namespace TrapMachine

/-- The context that is saved on entry. -/
def savedContext (desc : TrapDescriptor) (vector syscallNum : ℤ) (args : Vector UInt64 6)
    (cpu : HardwareCPU) : TrapContext where
  vector := vector
  type := desc.type
  name := desc.name
  savedPC := cpu.programCounter
  savedRSP := cpu.userRSP
  syscallNum := syscallNum
  args := args

/-- The entry of a trap: the descriptor counts it and the CPU enters kernel mode. -/
def enter (desc : TrapDescriptor) (vector : ℤ) (m : TrapMachine) : TrapMachine where
  cpu := m.cpu.switchToKernelMode vector
  traps := { m.traps with
    descriptors := fun v =>
      if v = vector then some { desc with count := desc.count + 1 } else m.traps.descriptors v }

/-- The return from a trap. -/
def leave (ctx : TrapContext) (m : TrapMachine) : TrapMachine where
  cpu := m.cpu.returnToUserMode
  traps := { m.traps with history := m.traps.history ++ [ctx] }

/-- The error of the handler is dropped.  SOURCE: pkg/kernel/trap_table.go:86-121 -/
def dispatchTrap : ℕ → ℤ → ℤ → Vector UInt64 6 → TrapMachine → Option TrapReturn
  | 0, _, _, _, _ => none
  | depth + 1, vector, syscallNum, args, m =>
    match m.traps.descriptors vector with
    | none => some (.error (.unhandled vector), m)
    | some desc =>
      let ctx := savedContext desc vector syscallNum args m.cpu
      let m := m.enter desc vector
      let handled := match desc.handler with
        | none => some (ctx, m)
        | some handler => (handler m.cpu ctx).run (dispatchTrap depth) ctx m
      handled.map fun (ctx, m) => (.ok ctx, m.leave ctx)

end TrapMachine

/-! ## The default table -/

def defaultExceptionHandler : TrapHandlerFunc := fun _ ctx =>
  .finish (-1)
    (some ("CPU Exception " ++ ctx.name ++ " triggered at PC:0x" ++ upperHex ctx.savedPC))

def defaultInterruptHandler : TrapHandlerFunc := fun _ _ => .finish 0 none

def defaultSyscallGateHandler : TrapHandlerFunc := fun _ ctx =>
  .assignContext { ctx with returnValue := 0 } (.finish 0 none)

/-- The exceptions, the hardware interrupts and the gate of the system calls. -/
def newTrapTable : TrapTable :=
  let tt : TrapTable := {}
  let tt := tt.registerHandler 0 "Divide-by-Zero (#DE)" .exception (some defaultExceptionHandler)
  let tt := tt.registerHandler 6 "Invalid Opcode (#UD)" .exception (some defaultExceptionHandler)
  let tt := tt.registerHandler 13 "General Protection Fault (#GP)" .exception
    (some defaultExceptionHandler)
  let tt := tt.registerHandler 14 "Page Fault (#PF)" .exception (some defaultExceptionHandler)
  let tt := tt.registerHandler 32 "PIT Timer Interrupt (IRQ 0)" .interrupt
    (some defaultInterruptHandler)
  let tt := tt.registerHandler 33 "Keyboard Controller (IRQ 1)" .interrupt
    (some defaultInterruptHandler)
  let tt := tt.registerHandler 46 "Disk Controller (IRQ 14)" .interrupt
    (some defaultInterruptHandler)
  tt.registerHandler 0x80 "System Call Gate (INT 0x80)" .syscall (some defaultSyscallGateHandler)

end OsSimulator.Model
