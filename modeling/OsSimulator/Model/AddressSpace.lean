import OsSimulator.Model.FreeList
import Mathlib.Data.Int.Notation

/-!
# Address spaces (`pkg/memory/address_space.go`)

The virtual memory layout of a process and its translation by base and bounds.  All
addresses are 64-bit words and wrap around as in the source.

* `SegmentType`, `SegmentDescriptor`, `AddressSpace`, `newAddressSpace`:
  pkg/memory/address_space.go:15-102
* `translateBaseAndBounds`: pkg/memory/address_space.go:105-111
* `sbrk`: pkg/memory/address_space.go:114-128
-/

set_option autoImplicit false

namespace OsSimulator.Model

/-- The keys of the map `Segments`. -/
inductive SegmentType where
  | code
  | data
  | heap
  | stack
deriving DecidableEq, Repr

structure SegmentDescriptor where
  type : SegmentType
  base : UInt64
  limit : UInt64
  growsDown : Bool := false
  readable : Bool
  writable : Bool
  executable : Bool
deriving DecidableEq, Repr

/-- `segments` is total: `newAddressSpace` enters all four and nothing removes one. -/
structure AddressSpace where
  pid : ℤ
  totalSize : UInt64
  physicalBase : UInt64
  codeStart : UInt64
  codeEnd : UInt64
  dataStart : UInt64
  dataEnd : UInt64
  heapStart : UInt64
  heapBreak : UInt64
  stackTop : UInt64
  stackPtr : UInt64
  guardPage : UInt64
  segments : SegmentType → SegmentDescriptor

/-- SOURCE: pkg/memory/address_space.go:57-102 -/
def newAddressSpace (pid : ℤ) (totalSize physicalBase : UInt64) : AddressSpace :=
  let totalSize := if totalSize = 0 then 64 * 1024 else totalSize
  let codeSize : UInt64 := 8 * 1024
  let dataSize : UInt64 := 4 * 1024
  let heapInit : UInt64 := 12 * 1024
  let stackInit := totalSize - 1
  { pid, totalSize, physicalBase
    codeStart := 0
    codeEnd := codeSize
    dataStart := codeSize
    dataEnd := codeSize + dataSize
    heapStart := heapInit
    heapBreak := heapInit
    stackTop := stackInit
    stackPtr := stackInit
    guardPage := 32 * 1024
    segments := fun
      | .code =>
        { type := .code, base := physicalBase + 0, limit := codeSize
          readable := true, writable := false, executable := true }
      | .data =>
        { type := .data, base := physicalBase + codeSize, limit := dataSize
          readable := true, writable := true, executable := false }
      | .heap =>
        { type := .heap, base := physicalBase + heapInit, limit := 0
          readable := true, writable := true, executable := false }
      | .stack =>
        { type := .stack, base := physicalBase + totalSize, limit := 0, growsDown := true
          readable := true, writable := true, executable := false } }

/-- The text of `ErrSegmentationFault`. -/
def errSegmentationFault : String :=
  "segmentation fault: virtual address out of bounds or invalid protection"

/-- The text of `ErrStackOverflow`. -/
def errStackOverflow : String := "stack overflow: stack collided with heap or guard page"

/-- The errors of `Sbrk`, with what they are formatted from. -/
inductive SbrkError where
  | belowHeapStart (heapStart : UInt64)
  -- wraps `ErrStackOverflow`
  | stackOverflow (newBreak stackPtr : UInt64)
deriving DecidableEq, Repr

def SbrkError.message : SbrkError → String
  | belowHeapStart heapStart =>
    "invalid sbrk: cannot contract heap below heap start (0x" ++ upperHex heapStart ++ ")"
  | stackOverflow newBreak stackPtr =>
    errStackOverflow ++ ": heap (0x" ++ upperHex newBreak ++
      ") collided with stack pointer (0x" ++ upperHex stackPtr ++ ")"

namespace AddressSpace

/-- SOURCE: pkg/memory/address_space.go:105-111 -/
def translateBaseAndBounds (vAddr : UInt64) (as : AddressSpace) : Except String UInt64 :=
  if vAddr ≥ as.totalSize then
    .error (errSegmentationFault ++ ": virtual address 0x" ++ upperHex vAddr ++
      " exceeds address space size 0x" ++ upperHex as.totalSize)
  else .ok (as.physicalBase + vAddr)

/-- Move the program break; the old one is returned.
SOURCE: pkg/memory/address_space.go:114-128 -/
def sbrk (increment : Int64) (as : AddressSpace) : Except SbrkError UInt64 × AddressSpace :=
  let oldBreak := as.heapBreak
  let newBreak := (oldBreak.toInt64 + increment).toUInt64
  if newBreak < as.heapStart then (.error (.belowHeapStart as.heapStart), as)
  else if newBreak ≥ as.stackPtr then (.error (.stackOverflow newBreak as.stackPtr), as)
  else
    (.ok oldBreak,
      { as with
        heapBreak := newBreak
        segments := Function.update as.segments .heap
          { as.segments .heap with limit := newBreak - as.heapStart } })

def runSbrk (as : AddressSpace) (increments : List Int64) : AddressSpace :=
  increments.foldl (fun as increment => (as.sbrk increment).2) as

end AddressSpace

end OsSimulator.Model
