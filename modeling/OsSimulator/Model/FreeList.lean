import Mathlib.Logic.Function.Basic
import OsSimulator.Library.DoublyLinked

/-!
# The free-list allocator (`pkg/memory/allocator.go`)

Block headers live in a store and are named by natural numbers, which stand for the
pointers of the source; `nil` is `none`.  Addresses and sizes are 64-bit words and wrap
around as in the source.

The loops of `Malloc` and `Free` go along the `Next` links and write nothing before they
stop, so they are searches in the list of pointers from `Head` on
(`FreeListAllocator.pointers`).

* `BlockHeader`, `FreeListAllocator`, `newFreeListAllocator`: lines 15-44
* `malloc`: lines 47-100
* `free`: lines 103-135

Left out: `RenderHeapMap`, which only prints.
-/

set_option autoImplicit false

namespace OsSimulator.Model

open Library

structure BlockHeader where
  addr : UInt64
  size : UInt64
  isAllocated : Bool
  next : Option ℕ := none
  prev : Option ℕ := none
deriving DecidableEq, Repr

/-- What the pointers point to. -/
abbrev Store := ℕ → BlockHeader

namespace Store

def modify (p : ℕ) (f : BlockHeader → BlockHeader) (s : Store) : Store :=
  Function.update s p (f (s p))

/-- A write behind a check for `nil`. -/
def modifyUnlessNil (p : Option ℕ) (f : BlockHeader → BlockHeader) (s : Store) : Store :=
  match p with
  | none => s
  | some p => s.modify p f

/-- Cut the rest of a chosen block off as a new free block, at the pointer `remaining`.
SOURCE: pkg/memory/allocator.go:82-93 -/
def splitBlock (chosen remaining : ℕ) (size : UInt64) (s : Store) : Store :=
  let b := s chosen
  let s : Store := Function.update s remaining
    { addr := b.addr + size, size := b.size - size, isAllocated := false,
      next := b.next, prev := some chosen }
  let s := s.modifyUnlessNil b.next fun n => { n with prev := some remaining }
  s.modify chosen fun b => { b with next := some remaining, size := size }

/-- Merge the block `gone` into the block `keep` before it. -/
def absorb (keep gone : ℕ) (s : Store) : Store :=
  let g := s gone
  let s := s.modify keep fun b => { b with size := b.size + g.size, next := g.next }
  s.modifyUnlessNil g.next fun n => { n with prev := some keep }

/-- SOURCE: pkg/memory/allocator.go:114-120 -/
def coalesceNext (curr : ℕ) (s : Store) : Store :=
  match (s curr).next with
  | none => s
  | some next => if !(s next).isAllocated then s.absorb curr next else s

/-- SOURCE: pkg/memory/allocator.go:123-129 -/
def coalescePrev (curr : ℕ) (s : Store) : Store :=
  match (s curr).prev with
  | none => s
  | some prev => if !(s prev).isAllocated then s.absorb prev curr else s

end Store

structure FreeListAllocator where
  heapStart : UInt64
  totalSize : UInt64
  head : Option ℕ
  allocatedBytes : UInt64 := 0
  allocationsCount : ℕ := 0
  blocks : Store
  /-- The next pointer that is not in use. -/
  fresh : ℕ

/-- The errors of the allocator, with what they are formatted from. -/
inductive HeapError where
  | outOfMemory (size : UInt64)
  | doubleFree (addr : UInt64)
  | notFound (addr : UInt64)
deriving DecidableEq, Repr

def errOutOfMemory : String := "out of memory: insufficient contiguous memory"

def errInvalidFree : String := "invalid free: address was not allocated"

/-- The verb `%X`. -/
def upperHex (v : UInt64) : String := String.ofList ((Nat.toDigits 16 v.toNat).map Char.toUpper)

def HeapError.message : HeapError → String
  | outOfMemory size =>
    errOutOfMemory ++ ": cannot allocate " ++ toString size ++
      " bytes (external fragmentation or heap exhaustion)"
  | doubleFree addr => errInvalidFree ++ ": double free at 0x" ++ upperHex addr
  | notFound addr => errInvalidFree ++ ": pointer 0x" ++ upperHex addr ++ " not found"

/-- SOURCE: pkg/memory/allocator.go:33-44 -/
def newFreeListAllocator (startAddr totalSize : UInt64) : FreeListAllocator where
  heapStart := startAddr
  totalSize := totalSize
  head := some 0
  -- pointers from `fresh` on are written before they are read
  blocks := fun _ => { addr := startAddr, size := totalSize, isAllocated := false }
  fresh := 1

namespace FreeListAllocator

/-- The pointers that a loop from `Head` visits.  There are never more blocks than pointers
handed out, so the bound on the number of rounds is not met (`BlocksOk.pointers_eq`). -/
def pointers (fla : FreeListAllocator) : List ℕ :=
  walk (fun p => (fla.blocks p).next) fla.fresh fla.head

def blockList (fla : FreeListAllocator) : List BlockHeader := fla.pointers.map fla.blocks

section Search

variable (fla : FreeListAllocator) (size : UInt64)

def fitsAt (p : ℕ) : Bool := !(fla.blocks p).isAllocated && decide ((fla.blocks p).size ≥ size)

/-- SOURCE: pkg/memory/allocator.go:67-73 -/
def firstFit : Option ℕ := fla.pointers.find? (fla.fitsAt size)

/-- One round of the loop at lines 57-64. -/
def bestFitRound (chosen : Option ℕ) (curr : ℕ) : Option ℕ :=
  if fla.fitsAt size curr then
    match chosen with
    | none => some curr
    | some c => if (fla.blocks curr).size < (fla.blocks c).size then some curr else some c
  else chosen

def bestFit : Option ℕ := fla.pointers.foldl (fla.bestFitRound size) none

end Search

/-- Use the chosen block, after splitting it if the rest is worth it.
SOURCE: pkg/memory/allocator.go:81-98 -/
def takeBlock (chosen : ℕ) (size : UInt64) (fla : FreeListAllocator) : FreeListAllocator :=
  let fla :=
    if (fla.blocks chosen).size > size + 16 then
      { fla with
        blocks := fla.blocks.splitBlock chosen fla.fresh size
        fresh := fla.fresh + 1 }
    else fla
  { fla with
    blocks := fla.blocks.modify chosen fun b => { b with isAllocated := true }
    allocatedBytes := fla.allocatedBytes + (fla.blocks chosen).size
    allocationsCount := fla.allocationsCount + 1 }

/-- SOURCE: pkg/memory/allocator.go:47-100 -/
def malloc (size : UInt64) (bestFit : Bool) (fla : FreeListAllocator) :
    Except HeapError UInt64 × FreeListAllocator :=
  if size = 0 then (.ok 0, fla)
  else
    match if bestFit then fla.bestFit size else fla.firstFit size with
    | none => (.error (.outOfMemory size), fla)
    | some chosen => (.ok (fla.blocks chosen).addr, fla.takeBlock chosen size)

/-- Free a block and merge it with its free neighbours.
SOURCE: pkg/memory/allocator.go:110-129 -/
def releaseBlock (curr : ℕ) (fla : FreeListAllocator) : FreeListAllocator :=
  let s := fla.blocks.modify curr fun b => { b with isAllocated := false }
  { fla with
    blocks := (s.coalesceNext curr).coalescePrev curr
    allocatedBytes := fla.allocatedBytes - (fla.blocks curr).size }

/-- SOURCE: pkg/memory/allocator.go:103-135 -/
def free (addr : UInt64) (fla : FreeListAllocator) : Except HeapError Unit × FreeListAllocator :=
  match fla.pointers.find? fun p => (fla.blocks p).addr == addr with
  | none => (.error (.notFound addr), fla)
  | some curr =>
    if !(fla.blocks curr).isAllocated then (.error (.doubleFree addr), fla)
    else (.ok (), fla.releaseBlock curr)

end FreeListAllocator

/-- A call on the allocator. -/
inductive HeapCall where
  | malloc (size : UInt64) (bestFit : Bool)
  | free (addr : UInt64)
deriving DecidableEq, Repr

namespace FreeListAllocator

def call (fla : FreeListAllocator) : HeapCall → FreeListAllocator
  | .malloc size bestFit => (fla.malloc size bestFit).2
  | .free addr => (fla.free addr).2

/-- The state after a sequence of calls. -/
def calls (fla : FreeListAllocator) (cs : List HeapCall) : FreeListAllocator := cs.foldl call fla

end FreeListAllocator

end OsSimulator.Model
