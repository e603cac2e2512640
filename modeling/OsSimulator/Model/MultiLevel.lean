import OsSimulator.Model.Paging

/-!
# Two-level page tables

`MultiLevelPageTable` as the code computes it: the upper ten bits of a 32-bit address select an
entry of the page directory, the next ten an entry of the page table below it, which is made
when an address of its 4 MB region is mapped first.  A directory entry owns its page table, so
the pointer is a value here and `none` is `nil`.

* `PageDirectoryEntry`, `MultiLevelPageTable`, `newMultiLevelPageTable`, `map`, `translate`:
  pkg/memory/multilevel_pt.go:9-87

Left out: the rendering.
-/

set_option autoImplicit false

namespace OsSimulator.Model

structure PageDirectoryEntry where
  valid : Bool := false
  pageTable : Option PageTable := none
  pfn : UInt64 := 0

structure MultiLevelPageTable where
  pid : ℤ
  pageSize : UInt64
  directorySize : ℕ
  tableSize : ℕ
  directory : List PageDirectoryEntry
  allocatedPTs : ℕ := 0

/-- SOURCE: pkg/memory/multilevel_pt.go:29-37 -/
def newMultiLevelPageTable (pid : ℤ) : MultiLevelPageTable where
  pid := pid
  pageSize := 4096
  directorySize := 1024
  tableSize := 1024
  directory := List.replicate 1024 {}

namespace MultiLevelPageTable

def pdeIdx (vAddr : UInt64) : UInt64 := (vAddr >>> 22) &&& 0x3FF

def pteIdx (vAddr : UInt64) : UInt64 := (vAddr >>> 12) &&& 0x3FF

/-- The directory entry with its page table, made now if it was not there. -/
def ensure (vAddr : UInt64) (mlpt : MultiLevelPageTable) (pde : PageDirectoryEntry) :
    PageDirectoryEntry × ℕ :=
  if !pde.valid then
    ({ valid := true
       pageTable := some (newPageTable mlpt.pid mlpt.tableSize mlpt.pageSize)
       pfn := pdeIdx vAddr + 100 }, mlpt.allocatedPTs + 1)
  else (pde, mlpt.allocatedPTs)

/-- `none` is a panic: an index out of range or a `nil` page table.
SOURCE: pkg/memory/multilevel_pt.go:40-54 -/
def map (vAddr pfn : UInt64) (writable : Bool) (mlpt : MultiLevelPageTable) :
    Option MultiLevelPageTable := do
  let pde ← mlpt.directory[(pdeIdx vAddr).toNat]?
  let pt ← (mlpt.ensure vAddr pde).1.pageTable
  let pt ← pt.mapPage (pteIdx vAddr) pfn writable
  some { mlpt with
    directory := mlpt.directory.set (pdeIdx vAddr).toNat
      { (mlpt.ensure vAddr pde).1 with pageTable := some pt }
    allocatedPTs := (mlpt.ensure vAddr pde).2 }

/-- The second half of `Translate`, for an entry of the page table `pt` of `pde`.
SOURCE: pkg/memory/multilevel_pt.go:67-86 -/
def translateEntry (vAddr : UInt64) (isWrite : Bool) (pde : PageDirectoryEntry) (pt : PageTable)
    (entry : PageTableEntry) (mlpt : MultiLevelPageTable) : Translation × MultiLevelPageTable :=
  if !entry.valid then
    (⟨0, none, some (PagingFault.invalidPage.wrap
      ("Page Table Entry " ++ toString (pteIdx vAddr) ++ " not valid in PDE " ++
        toString (pdeIdx vAddr)))⟩, mlpt)
  else if !entry.present then
    (⟨0, some entry, some (PagingFault.pageFault.wrap
      ("VPN [PDE:" ++ toString (pdeIdx vAddr) ++ ", PTE:" ++ toString (pteIdx vAddr) ++
        "] swapped to disk"))⟩, mlpt)
  else if isWrite && !entry.readWrite then
    (⟨0, some entry, some (PagingFault.protectionFault.wrap
      ("Read-only page violation at vAddr 0x" ++ showHex 8 vAddr))⟩, mlpt)
  else
    (⟨entry.pfn * mlpt.pageSize + (vAddr &&& 0xFFF), some (entry.track isWrite), none⟩,
      { mlpt with
        directory := mlpt.directory.set (pdeIdx vAddr).toNat { pde with
          pageTable := some { pt with
            entries := pt.entries.set (pteIdx vAddr).toNat (entry.track isWrite) } } })

/-- `none` is a panic, as for `map`.
SOURCE: pkg/memory/multilevel_pt.go:57-87 -/
def translate (vAddr : UInt64) (isWrite : Bool) (mlpt : MultiLevelPageTable) :
    Option (Translation × MultiLevelPageTable) := do
  let pde ← mlpt.directory[(pdeIdx vAddr).toNat]?
  if !pde.valid then
    some (⟨0, none, some (PagingFault.invalidPage.wrap
      ("Page Directory Entry " ++ toString (pdeIdx vAddr) ++ " not mapped for vAddr 0x" ++
        showHex 8 vAddr))⟩, mlpt)
  else
    let pt ← pde.pageTable
    if goInt (pteIdx vAddr) ≥ pt.entries.length then
      some (⟨0, none, some (PagingFault.invalidPage.wrap
        ("Page Table Entry " ++ toString (pteIdx vAddr) ++ " not valid in PDE " ++
          toString (pdeIdx vAddr)))⟩, mlpt)
    else
      let entry ← pt.entries[(pteIdx vAddr).toNat]?
      some (mlpt.translateEntry vAddr isWrite pde pt entry)

end MultiLevelPageTable

end OsSimulator.Model
