import OsSimulator.Model.AddressSpace

/-!
# The call stack (`pkg/memory/stack_heap.go`)

The activation records of the calls of a program, the last one on top.  The pointers are
64-bit words and wrap around as in the source; the values of local variables, of type
`interface{}` there, are of any type `V`.

* `StackFrame`, `CallStack`, `newCallStack`: lines 10-38
* `pushFrame`: lines 41-66
* `popFrame`: lines 69-80

Left out: `RenderStack`, which only prints.
-/

set_option autoImplicit false

namespace OsSimulator.Model

structure StackFrame (V : Type) where
  functionName : String
  returnAddress : UInt64
  framePointer : UInt64
  stackPointer : UInt64
  localVariables : String → Option V
  frameSizeBytes : UInt64

@[ext]
structure CallStack (V : Type) where
  baseAddress : UInt64
  currentSP : UInt64
  currentBP : UInt64
  frames : List (StackFrame V) := []
  maxDepth : ℤ := 256
  totalSizeBytes : UInt64

/-- The errors of the call stack, with what they are formatted from.  The first two wrap
`ErrStackOverflow`. -/
inductive StackError where
  | maxDepth (depth : ℤ)
  | boundary (newSP : UInt64)
  | underflow
deriving DecidableEq, Repr

def StackError.message : StackError → String
  | maxDepth depth =>
    errStackOverflow ++ ": max stack recursion depth " ++ toString depth ++ " reached"
  | boundary newSP =>
    errStackOverflow ++ ": stack pointer 0x" ++ upperHex newSP ++ " exceeded stack boundary"
  | underflow => "stack underflow: no active frames to pop"

/-- SOURCE: pkg/memory/stack_heap.go:29-38 -/
def newCallStack (V : Type) (baseAddr totalSize : UInt64) : CallStack V where
  baseAddress := baseAddr
  currentSP := baseAddr
  currentBP := baseAddr
  totalSizeBytes := totalSize

namespace CallStack

variable {V : Type}

/-- SOURCE: pkg/memory/stack_heap.go:41-66 -/
def pushFrame (funcName : String) (retAddr frameSize : UInt64) (locals : String → Option V)
    (cs : CallStack V) : Except StackError (StackFrame V) × CallStack V :=
  if (cs.frames.length : ℤ) ≥ cs.maxDepth then (.error (.maxDepth cs.maxDepth), cs)
  else
    let newSP := cs.currentSP - frameSize
    if newSP > cs.currentSP ∨ cs.baseAddress - newSP > cs.totalSizeBytes then
      (.error (.boundary newSP), cs)
    else
      let frame : StackFrame V :=
        { functionName := funcName, returnAddress := retAddr, framePointer := cs.currentBP,
          stackPointer := newSP, localVariables := locals, frameSizeBytes := frameSize }
      (.ok frame,
        { cs with currentBP := cs.currentSP, currentSP := newSP, frames := cs.frames ++ [frame] })

/-- SOURCE: pkg/memory/stack_heap.go:69-80 -/
def popFrame (cs : CallStack V) : Except StackError (StackFrame V) × CallStack V :=
  match cs.frames.getLast? with
  | none => (.error .underflow, cs)
  | some popped =>
    (.ok popped,
      { cs with
        frames := cs.frames.dropLast
        currentSP := cs.currentSP + popped.frameSizeBytes
        currentBP := popped.framePointer })

end CallStack

/-- A call on the call stack. -/
inductive StackCall (V : Type) where
  | push (funcName : String) (retAddr frameSize : UInt64) (locals : String → Option V)
  | pop

namespace CallStack

variable {V : Type}

def call (cs : CallStack V) : StackCall V → Except StackError (StackFrame V) × CallStack V
  | .push funcName retAddr frameSize locals => cs.pushFrame funcName retAddr frameSize locals
  | .pop => cs.popFrame

def run (cs : CallStack V) (calls : List (StackCall V)) : CallStack V :=
  calls.foldl (fun cs c => (cs.call c).2) cs

end CallStack

end OsSimulator.Model
