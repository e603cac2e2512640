import Mathlib.Algebra.Group.Nat.Defs
import Mathlib.Data.Int.Notation
import Mathlib.Data.List.Basic
import Mathlib.Logic.Function.Basic

/-!
# Demand paging (`pkg/memory`)

Page tables, the TLB, the frame table and the memory manager that ties them together.
Addresses and page and frame numbers are 64-bit words and wrap around as in the source;
ticks and counters are unbounded, they grow by one at a time.

An access either returns an address, returns an error, or panics (`AccessResult`); an
index out of range and a division by zero are panics.

* `PageTableEntry`, `PageTable`, `newPageTable`, `mapPage`, `translate`:
  pkg/memory/paging.go:10-93
* `TLBEntry`, `TLB`, `lookup`, `insert`, `flush`: pkg/memory/tlb.go:10-118
* `FrameInfo`, `MemoryManager`, `accessMemory`, `allocateFrame`:
  pkg/memory/page_replacement.go:10-204

Left out: the page-table fields that nothing here reads (user/supervisor, number of pages), the
TLB's own lock (the memory manager is used by one caller at a time) and all rendering.
-/

set_option autoImplicit false

namespace OsSimulator.Model

/-! ## Page tables -/

structure PageTableEntry where
  valid : Bool := false
  present : Bool := false
  readWrite : Bool := false
  accessed : Bool := false
  dirty : Bool := false
  pfn : UInt64 := 0
  swapOffset : UInt64 := 0
deriving DecidableEq, Repr

structure PageTable where
  pid : ℤ
  pageSize : UInt64
  entries : List PageTableEntry

/-- `ErrInvalidPage` and its text. -/
def errInvalidPage : String := "invalid page: virtual page not mapped"

/-- The three sentinel errors of the package, which callers tell apart. -/
inductive PagingFault where
  | pageFault
  | protectionFault
  | invalidPage
deriving DecidableEq, Repr

def PagingFault.text : PagingFault → String
  | pageFault => "page fault: page not present in physical memory"
  | protectionFault => "protection fault: write attempt on read-only page"
  | invalidPage => errInvalidPage

/-- An error that wraps a sentinel. -/
structure TranslateError where
  kind : PagingFault
  message : String
deriving DecidableEq, Repr

/-- `fmt.Errorf("%w: ...")` -/
def PagingFault.wrap (kind : PagingFault) (detail : String) : TranslateError :=
  ⟨kind, kind.text ++ ": " ++ detail⟩

/-- What `Translate` returns: the address, the entry it points to, and the error. -/
structure Translation where
  pAddr : UInt64
  pte : Option PageTableEntry
  err : Option TranslateError
deriving DecidableEq, Repr

/-- The `%X` rendering of a word, with zeros in front up to `width`. -/
def showHex (width : ℕ) (v : UInt64) : String :=
  let digits := (Nat.toDigits 16 v.toNat).map Char.toUpper
  String.ofList (List.replicate (width - digits.length) '0' ++ digits)

/-- `int(v)`: values from `2 ^ 63` on become negative. -/
def goInt (v : UInt64) : ℤ := (v.toNat : ℤ).bmod (2 ^ 64)

/-- SOURCE: pkg/memory/paging.go:38-48 -/
def newPageTable (pid : ℤ) (numPages : ℕ) (pageSize : UInt64) : PageTable where
  pid := pid
  pageSize := if pageSize = 0 then 4096 else pageSize
  entries := List.replicate numPages {}

/-- `none` is a panic: a negative `int(vpn)` passes the check and is out of range.
SOURCE: pkg/memory/paging.go:51-61 -/
def PageTable.mapPage (vpn pfn : UInt64) (writable : Bool) (pt : PageTable) : Option PageTable :=
  if goInt vpn < pt.entries.length then
    if vpn.toNat < pt.entries.length then
      some { pt with
        entries := pt.entries.set vpn.toNat
          { valid := true, present := true, readWrite := writable, pfn } }
    else none
  else some pt

/-- The hardware bits of an entry after a successful translation.
SOURCE: pkg/memory/paging.go:85-88 -/
def PageTableEntry.track (isWrite : Bool) (e : PageTableEntry) : PageTableEntry :=
  { e with accessed := true, dirty := isWrite || e.dirty }

/-- `none` is a panic: a page size of zero, or a negative `int(vpn)`.
SOURCE: pkg/memory/paging.go:64-93 -/
def PageTable.translate (vAddr : UInt64) (isWrite : Bool) (pt : PageTable) :
    Option (Translation × PageTable) :=
  if pt.pageSize = 0 then none else
  let vpn := vAddr / pt.pageSize
  let offset := vAddr % pt.pageSize
  let invalid : Translation := ⟨0, none, some (PagingFault.invalidPage.wrap
    ("VPN " ++ toString vpn ++ " at vAddr 0x" ++ showHex 0 vAddr))⟩
  if goInt vpn ≥ pt.entries.length then some (invalid, pt) else
  match pt.entries[vpn.toNat]? with
  | none => none
  | some entry =>
    if !entry.valid then some (invalid, pt)
    else if !entry.present then
      some (⟨0, some entry, some (PagingFault.pageFault.wrap
        ("VPN " ++ toString vpn ++ " at vAddr 0x" ++ showHex 0 vAddr ++
          " is swapped to disk (Swap Offset: " ++ toString entry.swapOffset ++ ")"))⟩, pt)
    else if isWrite && !entry.readWrite then
      some (⟨0, some entry, some (PagingFault.protectionFault.wrap
        ("Cannot write to read-only page (VPN " ++ toString vpn ++ ")"))⟩, pt)
    else
      let entry := entry.track isWrite
      some (⟨entry.pfn * pt.pageSize + offset, some entry, none⟩,
        { pt with entries := pt.entries.set vpn.toNat entry })

/-! ## The TLB -/

structure TLBEntry where
  vpn : UInt64 := 0
  pfn : UInt64 := 0
  asid : ℤ := 0
  valid : Bool := false
  readWrite : Bool := false
  lastAccess : ℤ := 0
deriving DecidableEq, Repr

structure TLB where
  entries : List TLBEntry
  hits : ℕ := 0
  misses : ℕ := 0
  accessTick : ℤ := 0

def newTLB (capacity : Int64) : TLB :=
  let capacity := if capacity ≤ 0 then 16 else capacity
  { entries := List.replicate capacity.toInt.toNat {} }

namespace TLB

def isFor (pid : ℤ) (vpn : UInt64) (e : TLBEntry) : Bool :=
  e.valid && e.asid == pid && e.vpn == vpn

/-- SOURCE: pkg/memory/tlb.go:42-59 -/
def lookup (pid : ℤ) (vpn : UInt64) (tlb : TLB) : Option UInt64 × TLB :=
  let tlb := { tlb with accessTick := tlb.accessTick + 1 }
  match tlb.entries.findIdx? (isFor pid vpn) with
  | some i =>
    let tick := tlb.accessTick
    ((tlb.entries[i]?).map TLBEntry.pfn,
      { tlb with
        entries := tlb.entries.modify i fun e => { e with lastAccess := tick }
        hits := tlb.hits + 1 })
  | none => (none, { tlb with misses := tlb.misses + 1 })

/-- The slot that `Insert` writes: the first that is empty or holds the page already,
otherwise the first with the least `LastAccess`.  `i` is the position of the list's head.
SOURCE: pkg/memory/tlb.go:69-98 -/
def insertSlot (pid : ℤ) (vpn : UInt64) : List TLBEntry → ℕ → ℕ → ℤ → ℕ
  | [], _, lruIdx, _ => lruIdx
  | e :: entries, i, lruIdx, oldestAccess =>
    if !e.valid then i
    else if isFor pid vpn e then i
    else if e.lastAccess < oldestAccess then insertSlot pid vpn entries (i + 1) i e.lastAccess
    else insertSlot pid vpn entries (i + 1) lruIdx oldestAccess

/-- All three branches leave the same entry in the slot. -/
def insert (pid : ℤ) (vpn pfn : UInt64) (writable : Bool) (tlb : TLB) : TLB :=
  let tlb := { tlb with accessTick := tlb.accessTick + 1 }
  let slot := insertSlot pid vpn tlb.entries 0 0 (tlb.accessTick + 1)
  { tlb with
    entries := tlb.entries.set slot
      { vpn, pfn, asid := pid, valid := true, readWrite := writable,
        lastAccess := tlb.accessTick } }

/-- SOURCE: pkg/memory/tlb.go:111-118 -/
def flush (tlb : TLB) : TLB :=
  { tlb with entries := tlb.entries.map fun e => { e with valid := false } }

end TLB

/-- A call of one of the three operations. -/
inductive TLBCall where
  | lookup (pid : ℤ) (vpn : UInt64)
  | insert (pid : ℤ) (vpn pfn : UInt64) (writable : Bool)
  | flush
deriving DecidableEq, Repr

/-- The state after a call. -/
def TLB.call (tlb : TLB) : TLBCall → TLB
  | .lookup pid vpn => (tlb.lookup pid vpn).2
  | .insert pid vpn pfn writable => tlb.insert pid vpn pfn writable
  | .flush => tlb.flush

/-! ## Frames -/

/-- The values of the string type `ReplacementPolicy`. -/
inductive ReplacementPolicy where
  | fifo
  | lru
  | clock
  | other (name : String)
deriving DecidableEq, Repr

def ReplacementPolicy.name : ReplacementPolicy → String
  | fifo => "FIFO"
  | lru => "LRU"
  | clock => "CLOCK"
  | other name => name

structure FrameInfo where
  pfn : UInt64
  pid : ℤ := 0
  vpn : UInt64 := 0
  isOccupied : Bool := false
  loadedTick : ℤ := 0
  lastUsedTick : ℤ := 0
  useBit : Bool := false
  isDirty : Bool := false
deriving DecidableEq, Repr

structure MemoryManager where
  numFrames : ℕ
  frames : List FrameInfo
  clockHand : ℕ := 0
  currentTick : ℤ := 0
  policy : ReplacementPolicy
  pageFaults : ℕ := 0
  pageEvictions : ℕ := 0
  swapWrites : ℕ := 0
  swapReads : ℕ := 0
  tlb : TLB
  history : List String := []

def newMemoryManager (numFrames : Int64) (policy : ReplacementPolicy) (tlbCapacity : Int64) :
    MemoryManager :=
  let numFrames := (if numFrames ≤ 0 then 4 else numFrames).toInt.toNat
  { numFrames
    frames := (List.range numFrames).map fun i => { pfn := UInt64.ofNat i }
    policy
    tlb := newTLB tlbCapacity }

/-- The loop of FIFO and LRU: the first frame with the least key.
SOURCE: pkg/memory/page_replacement.go:150-168 -/
def scanOldest (key : FrameInfo → ℤ) : List FrameInfo → ℕ → ℕ → ℤ → ℕ
  | [], _, victimIdx, _ => victimIdx
  | f :: frames, i, victimIdx, oldest =>
    if key f < oldest then scanOldest key frames (i + 1) i (key f)
    else scanOldest key frames (i + 1) victimIdx oldest

def oldestFrame (key : FrameInfo → ℤ) : List FrameInfo → ℕ
  | [] => 0
  | f :: frames => scanOldest key frames 1 0 (key f)

/-- The clock: use bits are cleared until a frame without one is found.  The loop is
unbounded in the source; every round but the last clears a bit, so that one round more
than there are frames is enough (`clockSweep_spec`).  The result is the victim, the new
position of the hand and the frames.
SOURCE: pkg/memory/page_replacement.go:170-184 -/
def clockSweep (numFrames : ℕ) : ℕ → ℕ → List FrameInfo → Option (ℕ × ℕ × List FrameInfo)
  | 0, _, _ => none
  | rounds + 1, clockHand, frames =>
    match frames[clockHand]? with
    | none => none
    | some f =>
      if !f.useBit then some (clockHand, (clockHand + 1) % numFrames, frames)
      else clockSweep numFrames rounds ((clockHand + 1) % numFrames)
        (frames.set clockHand { f with useBit := false })

namespace MemoryManager

/-- The position of the frame to evict. -/
def chooseVictim (mm : MemoryManager) : Option (ℕ × MemoryManager) :=
  match mm.policy with
  | .fifo => some (oldestFrame FrameInfo.loadedTick mm.frames, mm)
  | .lru => some (oldestFrame FrameInfo.lastUsedTick mm.frames, mm)
  | .clock =>
    (clockSweep mm.numFrames (mm.frames.length + 1) mm.clockHand mm.frames).map
      fun (victimIdx, clockHand, frames) => (victimIdx, { mm with clockHand, frames })
  | .other _ => some (0, mm)

/-- The frame is overwritten with a fresh `FrameInfo` of the page. -/
def loadFrame (i : ℕ) (pid : ℤ) (vpn : UInt64) (mm : MemoryManager) : MemoryManager :=
  { mm with
    frames := mm.frames.set i
      { pfn := UInt64.ofNat i, pid, vpn, isOccupied := true, loadedTick := mm.currentTick,
        lastUsedTick := mm.currentTick, useBit := true } }

/-- The frame number, the evicted page and whether a page was evicted; `none` is a panic.
SOURCE: pkg/memory/page_replacement.go:126-204 -/
def allocateFrame (pid : ℤ) (vpn : UInt64) (mm : MemoryManager) :
    Option (UInt64 × UInt64 × Bool × MemoryManager) :=
  match mm.frames.findIdx? (fun f => !f.isOccupied) with
  | some i => some (UInt64.ofNat i, 0, false, mm.loadFrame i pid vpn)
  | none =>
    match { mm with pageEvictions := mm.pageEvictions + 1 }.chooseVictim with
    | none => none
    | some (victimIdx, mm) =>
      match mm.frames[victimIdx]? with
      | none => none
      | some victim =>
        let mm := if victim.isDirty then { mm with swapWrites := mm.swapWrites + 1 } else mm
        some (UInt64.ofNat victimIdx, victim.vpn, true, mm.loadFrame victimIdx pid vpn)

/-- The metadata of the accessed frame; `none` when the index is out of range. -/
def touchFrame (pfn : UInt64) (isWrite : Bool) (mm : MemoryManager) : Option MemoryManager :=
  if pfn.toNat < mm.frames.length then
    some { mm with
      frames := mm.frames.modify pfn.toNat fun f =>
        { f with
          lastUsedTick := mm.currentTick
          useBit := true
          isDirty := isWrite || f.isDirty } }
  else none

/-- The page fault branch: the new state and the updated entry.
SOURCE: pkg/memory/page_replacement.go:94-113 -/
def pageFault (pid : ℤ) (vpn : UInt64) (pte : PageTableEntry) (mm : MemoryManager) :
    Option (MemoryManager × PageTableEntry) :=
  let mm := { mm with pageFaults := mm.pageFaults + 1, swapReads := mm.swapReads + 1 }
  match mm.allocateFrame pid vpn with
  | none => none
  | some (allocatedPFN, evictedVPN, wasEvicted, mm) =>
    let event := "[Tick " ++ toString mm.currentTick ++ "] PAGE FAULT: VPN " ++ toString vpn ++
      " loaded into PFN " ++ toString allocatedPFN
    let event := if wasEvicted then
        event ++ " (Evicted VPN " ++ toString evictedVPN ++ " via " ++ mm.policy.name ++ ")"
      else event
    some ({ mm with history := mm.history ++ [event] },
      { pte with present := true, pfn := allocatedPFN, accessed := true })

end MemoryManager

/-- What a call of `AccessMemory` comes to. -/
inductive AccessResult where
  | ok (pAddr : UInt64)
  | error (message : String)
  | panic
deriving DecidableEq, Repr

namespace MemoryManager

/-- The second half of an access, for a page that is present.
SOURCE: pkg/memory/page_replacement.go:115-124 -/
def finishAccess (pt : PageTable) (vpn offset : UInt64) (isWrite : Bool) (pte : PageTableEntry)
    (mm : MemoryManager) : AccessResult × MemoryManager × PageTable :=
  let mm := { mm with tlb := mm.tlb.insert pt.pid vpn pte.pfn pte.readWrite }
  let pte' := { pte with dirty := isWrite || pte.dirty }
  match mm.touchFrame pte.pfn isWrite with
  | none => (.panic, mm, { pt with entries := pt.entries.set vpn.toNat pte })
  | some mm =>
    (.ok (pte.pfn * pt.pageSize + offset), mm,
      { pt with entries := pt.entries.set vpn.toNat pte' })

/-- SOURCE: pkg/memory/page_replacement.go:65-124 -/
def accessMemory (pt : PageTable) (vAddr : UInt64) (isWrite : Bool) (mm : MemoryManager) :
    AccessResult × MemoryManager × PageTable :=
  let mm := { mm with currentTick := mm.currentTick + 1 }
  if pt.pageSize = 0 then (.panic, mm, pt) else
  let vpn := vAddr / pt.pageSize
  let offset := vAddr % pt.pageSize
  let hit := mm.tlb.lookup pt.pid vpn
  let mm := { mm with tlb := hit.2 }
  match hit.1 with
  | some pfn =>
    match mm.touchFrame pfn isWrite with
    | none => (.panic, mm, pt)
    | some mm => (.ok (pfn * pt.pageSize + offset), mm, pt)
  | none =>
    let notMapped := AccessResult.error
      (errInvalidPage ++ ": VPN " ++ toString vpn ++ " not mapped")
    if goInt vpn ≥ pt.entries.length then (notMapped, mm, pt) else
    -- a negative `int(vpn)` passes the check above and fails here
    match pt.entries[vpn.toNat]? with
    | none => (.panic, mm, pt)
    | some pte =>
      if !pte.valid then (notMapped, mm, pt)
      else if pte.present then mm.finishAccess pt vpn offset isWrite pte
      else
        match mm.pageFault pt.pid vpn pte with
        | none => (.panic, mm, pt)
        | some (mm, pte) => mm.finishAccess pt vpn offset isWrite pte

end MemoryManager

/-! ## Processes sharing the memory manager -/

/-- A memory manager and one page table for each PID; a PID that is not in use has a
table without entries. -/
structure PagingSystem where
  mm : MemoryManager
  tables : ℤ → PageTable

/-- One call of `AccessMemory`. -/
structure MemoryAccess where
  pid : ℤ
  vAddr : UInt64
  isWrite : Bool
deriving DecidableEq, Repr

namespace PagingSystem

def access (c : MemoryAccess) (s : PagingSystem) : AccessResult × PagingSystem :=
  let r := s.mm.accessMemory (s.tables c.pid) c.vAddr c.isWrite
  (r.1, ⟨r.2.1, Function.update s.tables c.pid r.2.2⟩)

/-- The state after a sequence of calls. -/
def run (s : PagingSystem) (calls : List MemoryAccess) : PagingSystem :=
  calls.foldl (fun s c => (s.access c).2) s

/-- What the calls of a sequence return. -/
def results (s : PagingSystem) : List MemoryAccess → List AccessResult
  | [] => []
  | c :: calls => (s.access c).1 :: results (s.access c).2 calls

/-- `MapPage` on the table of one process; after a panic the table is as before. -/
def mapPage (pid : ℤ) (vpn pfn : UInt64) (writable : Bool) (s : PagingSystem) : PagingSystem :=
  { s with
    tables := Function.update s.tables pid
      (((s.tables pid).mapPage vpn pfn writable).getD (s.tables pid)) }

end PagingSystem

/-- A call on the shared memory manager or on one of the page tables. -/
inductive PagingEvent where
  | mapPage (pid : ℤ) (vpn pfn : UInt64) (writable : Bool)
  | access (c : MemoryAccess)
deriving DecidableEq, Repr

/-- The state after a call. -/
def PagingSystem.handle (s : PagingSystem) : PagingEvent → PagingSystem
  | .mapPage pid vpn pfn writable => s.mapPage pid vpn pfn writable
  | .access c => (s.access c).2

end OsSimulator.Model
