import OsSimulator.Model.Paging

/-!
# Shared memory (`pkg/ipc/shared_memory.go`)

The manager of the segments, and the page tables of the processes, which are named by pointers of a
type `P`.  Others may map pages and translate addresses in the same tables at any time, so a history
has these operations too.  A panic ends the history (`none`): a negative size, a page size of zero,
or a page number whose `int` is negative.

* `createSegment`: pkg/ipc/shared_memory.go:46-64
* `attach`: pkg/ipc/shared_memory.go:67-87

Left out: the semaphore of a segment (`OsSimulator.Model.SemaphoreSystem`), which the two operations
do not use, and the rendering.  The counter of the segments grows by one at a time and is unbounded.
-/

set_option autoImplicit false

namespace OsSimulator.Model

structure SharedMemorySegment where
  shmID : ℤ
  physicalPFN : UInt64
  sizeBytes : ℤ
  physicalData : List UInt8
deriving DecidableEq, Repr

structure ProcessMapping (P : Type) where
  pid : ℤ
  virtualAddress : UInt64
  pageTable : P

structure SharedMemoryManager (P : Type) where
  segments : ℤ → Option SharedMemorySegment := fun _ => none
  mappings : ℤ → List (ProcessMapping P) := fun _ => []
  nextShmID : ℤ := 1

/-- The manager and all page tables. -/
structure ShmSystem (P : Type) where
  manager : SharedMemoryManager P := {}
  tables : P → PageTable

def errInvalidShmid (shmID : ℤ) : String := "shmat: invalid shmid " ++ toString shmID

section SharedMemory

variable {P : Type}

/-- SOURCE: pkg/ipc/shared_memory.go:46-64 -/
def SharedMemoryManager.createSegment (sizeBytes : ℤ) (smm : SharedMemoryManager P) :
    Option (SharedMemorySegment × SharedMemoryManager P) :=
  let shmID := smm.nextShmID
  if sizeBytes < 0 then none else
  let seg : SharedMemorySegment :=
    { shmID
      physicalPFN := UInt64.ofInt (500 + shmID)
      sizeBytes
      physicalData := List.replicate sizeBytes.toNat 0 }
  some (seg,
    { segments := Function.update smm.segments shmID (some seg)
      mappings := Function.update smm.mappings shmID []
      nextShmID := shmID + 1 })

variable [DecidableEq P]

/-- The error, if any, and the system after the call.
SOURCE: pkg/ipc/shared_memory.go:67-87 -/
def ShmSystem.attach (shmID pid : ℤ) (vAddr : UInt64) (p : P) (s : ShmSystem P) :
    Option (Option String × ShmSystem P) :=
  match s.manager.segments shmID with
  | none => some (some (errInvalidShmid shmID), s)
  | some seg => do
      let pt := s.tables p
      if pt.pageSize = 0 then none else
      let vpn := vAddr / pt.pageSize
      let pt ← pt.mapPage vpn seg.physicalPFN true
      let mapping := { pid, virtualAddress := vAddr, pageTable := p }
      some (none,
        { manager := { s.manager with
            mappings := Function.update s.manager.mappings shmID
              (s.manager.mappings shmID ++ [mapping]) }
          tables := Function.update s.tables p pt })

/-- One operation of a history; the last two are those of other users of the tables. -/
inductive ShmOp (P : Type) where
  | create (sizeBytes : ℤ)
  | attach (shmID pid : ℤ) (vAddr : UInt64) (p : P)
  | mapPage (p : P) (vpn pfn : UInt64) (writable : Bool)
  | translate (p : P) (vAddr : UInt64) (isWrite : Bool)

def ShmSystem.step (s : ShmSystem P) : ShmOp P → Option (ShmSystem P)
  | .create sizeBytes => do
      let (_, manager) ← s.manager.createSegment sizeBytes
      some { s with manager }
  | .attach shmID pid vAddr p => do
      let (_, s) ← s.attach shmID pid vAddr p
      some s
  | .mapPage p vpn pfn writable => do
      let pt ← (s.tables p).mapPage vpn pfn writable
      some { s with tables := Function.update s.tables p pt }
  | .translate p vAddr isWrite => do
      let (_, pt) ← (s.tables p).translate vAddr isWrite
      some { s with tables := Function.update s.tables p pt }

/-- A new manager beside the given page tables, after the given operations. -/
def runShm (tables : P → PageTable) (ops : List (ShmOp P)) : Option (ShmSystem P) :=
  ops.foldlM ShmSystem.step { tables }

end SharedMemory

end OsSimulator.Model
