import OsSimulator.Interface.PageTableView
import OsSimulator.Library.LazyBlocks
import OsSimulator.Model.MultiLevel

/-!
# The two-level page table as lazily allocated blocks

`blocks` reads the page directory as a directory of blocks of 1024 entries.  The shifts and masks
of the code are the quotient and the remainder of the page number (`pdeIdx_eq`, `pteIdx_eq`), so
that `Map` writes one cell (`map_spec`) and `Translate` is the check of one cell
(`translate_spec`).
-/

set_option autoImplicit false

namespace OsSimulator.Interface

open Model Library

/-! ## Addresses -/

/-- The page number in the 20 bits above the offset. -/
def pageIdx (vAddr : UInt64) : ℕ := vAddr.toNat / 4096 % 2 ^ 20

theorem toNat_mask (v : UInt64) : (v &&& 0x3FF).toNat = v.toNat % 1024 := by
  have hmask : (0x3FF : UInt64).toNat = 2 ^ 10 - 1 := rfl
  rw [UInt64.toNat_and, hmask, Nat.and_two_pow_sub_one_eq_mod]

theorem pdeIdx_eq (vAddr : UInt64) :
    (MultiLevelPageTable.pdeIdx vAddr).toNat = pageIdx vAddr / 1024 := by
  have hshift : (vAddr >>> 22).toNat = vAddr.toNat / 4194304 := by
    rw [UInt64.toNat_shiftRight]
    exact Nat.shiftRight_eq_div_pow ..
  unfold MultiLevelPageTable.pdeIdx pageIdx
  rw [toNat_mask, hshift]
  omega

theorem pteIdx_eq (vAddr : UInt64) :
    (MultiLevelPageTable.pteIdx vAddr).toNat = pageIdx vAddr % 1024 := by
  have hshift : (vAddr >>> 12).toNat = vAddr.toNat / 4096 := by
    rw [UInt64.toNat_shiftRight]
    exact Nat.shiftRight_eq_div_pow ..
  unfold MultiLevelPageTable.pteIdx pageIdx
  rw [toNat_mask, hshift]
  omega

theorem offset_eq (vAddr : UInt64) : vAddr &&& 0xFFF = vAddr % 4096 := by
  have hmask : (0xFFF : UInt64).toNat = 2 ^ 12 - 1 := rfl
  apply UInt64.toNat_inj.mp
  rw [UInt64.toNat_and, hmask, Nat.and_two_pow_sub_one_eq_mod, UInt64.toNat_mod]
  rfl

theorem pageIdx_div_lt (vAddr : UInt64) : pageIdx vAddr / 1024 < 1024 := by
  unfold pageIdx
  omega

/-! ## The directory -/

/-- The entries of the page table below a directory entry. -/
def pdeBlock (pde : PageDirectoryEntry) : Option (List PageTableEntry) :=
  if pde.valid then pde.pageTable.map PageTable.entries else none

/-- The directory as blocks that are made on demand. -/
def blocks (mlpt : MultiLevelPageTable) : LazyBlocks.Directory PageTableEntry :=
  mlpt.directory.map pdeBlock

/-- The entry of a page, blank if its page table was never made. -/
def pageEntry (mlpt : MultiLevelPageTable) (i : ℕ) : PageTableEntry :=
  LazyBlocks.cell 1024 {} (blocks mlpt) i

/-- The region has a page table. -/
def HasTable (mlpt : MultiLevelPageTable) (k : ℕ) : Prop :=
  (LazyBlocks.block (blocks mlpt) k).isSome

/-- The shape of the two levels, which every call keeps. -/
structure TwoLevelOk (mlpt : MultiLevelPageTable) : Prop where
  pageSize_eq : mlpt.pageSize = 4096
  tableSize_eq : mlpt.tableSize = 1024
  length_eq : mlpt.directory.length = 1024
  shaped : LazyBlocks.Shaped 1024 (blocks mlpt)
  not_nil : ∀ pde ∈ mlpt.directory, pde.valid = true → pde.pageTable ≠ none

section Directory

variable {mlpt : MultiLevelPageTable} {pde : PageDirectoryEntry} {vAddr : UInt64} {k : ℕ}

theorem block_eq (hget : mlpt.directory[k]? = some pde) :
    LazyBlocks.block (blocks mlpt) k = pdeBlock pde := by
  unfold LazyBlocks.block blocks
  rw [List.getElem?_map, hget]
  rfl

theorem TwoLevelOk.exists_pde (h : TwoLevelOk mlpt) (vAddr : UInt64) :
    ∃ pde, mlpt.directory[pageIdx vAddr / 1024]? = some pde := by
  have hlt : pageIdx vAddr / 1024 < mlpt.directory.length := by
    rw [h.length_eq]
    exact pageIdx_div_lt vAddr
  exact ⟨_, List.getElem?_eq_getElem hlt⟩

/-- A valid directory entry has a page table of 1024 entries. -/
theorem TwoLevelOk.exists_table (h : TwoLevelOk mlpt) (hget : mlpt.directory[k]? = some pde)
    (hvalid : pde.valid = true) :
    ∃ pt, pde.pageTable = some pt ∧ LazyBlocks.block (blocks mlpt) k = some pt.entries ∧
      pt.entries.length = 1024 := by
  obtain ⟨pt, hpt⟩ :=
    Option.ne_none_iff_exists'.mp (h.not_nil pde (List.mem_of_getElem? hget) hvalid)
  have hblock : LazyBlocks.block (blocks mlpt) k = some pt.entries := by
    rw [block_eq hget, pdeBlock, hvalid, hpt]
    rfl
  exact ⟨pt, hpt, hblock, h.shaped k _ hblock⟩

theorem block_of_invalid (hget : mlpt.directory[k]? = some pde) (hvalid : pde.valid = false) :
    LazyBlocks.block (blocks mlpt) k = none := by
  rw [block_eq hget, pdeBlock, hvalid]
  rfl

/-- The table with one entry written, below the given directory entry. -/
def stored (mlpt : MultiLevelPageTable) (vAddr : UInt64) (pde : PageDirectoryEntry) (pt : PageTable)
    (e : PageTableEntry) (allocatedPTs : ℕ) : MultiLevelPageTable :=
  { mlpt with
    directory := mlpt.directory.set (pageIdx vAddr / 1024) { pde with
      pageTable := some { pt with entries := pt.entries.set (pageIdx vAddr % 1024) e } }
    allocatedPTs }

variable {e : PageTableEntry} {pt : PageTable}

/-- Writing an entry of a page table that hangs below the directory is a write of a cell. -/
theorem TwoLevelOk.stored (h : TwoLevelOk mlpt) (hvalid : pde.valid = true)
    (hpt : (LazyBlocks.block (blocks mlpt) (pageIdx vAddr / 1024)).getD (List.replicate 1024 {}) =
      pt.entries)
    (e : PageTableEntry) (allocatedPTs : ℕ) :
    TwoLevelOk (stored mlpt vAddr pde pt e allocatedPTs) ∧
      (∀ i, pageEntry (stored mlpt vAddr pde pt e allocatedPTs) i =
        if i = pageIdx vAddr then e else pageEntry mlpt i) ∧
      ∀ k, HasTable (stored mlpt vAddr pde pt e allocatedPTs) k ↔
        k = pageIdx vAddr / 1024 ∨ HasTable mlpt k := by
  have hlt : pageIdx vAddr / 1024 < (blocks mlpt).length := by
    rw [blocks, List.length_map, h.length_eq]
    exact pageIdx_div_lt vAddr
  have hblocks : blocks (Interface.stored mlpt vAddr pde pt e allocatedPTs) =
      LazyBlocks.write 1024 {} (blocks mlpt) (pageIdx vAddr) e := by
    have hblock : pdeBlock { pde with
        pageTable := some { pt with entries := pt.entries.set (pageIdx vAddr % 1024) e } } =
        some (pt.entries.set (pageIdx vAddr % 1024) e) := if_pos hvalid
    unfold LazyBlocks.write
    rw [hpt, ← hblock]
    exact List.map_set
  refine ⟨⟨h.pageSize_eq, h.tableSize_eq, ?_, ?_, ?_⟩, fun i => ?_, fun k => ?_⟩
  · rw [Interface.stored, List.length_set]
    exact h.length_eq
  · rw [hblocks]
    exact h.shaped.write hlt
  · intro pde' hpde'
    rcases List.mem_or_eq_of_mem_set hpde' with hpde' | rfl
    · exact h.not_nil pde' hpde'
    · exact fun _ => Option.some_ne_none _
  · unfold pageEntry
    rw [hblocks]
    exact LazyBlocks.cell_write (by omega) h.shaped hlt i
  · unfold HasTable
    rw [hblocks]
    exact LazyBlocks.isSome_block_write hlt k

/-! Both functions, when the page table is there. -/

theorem map_of_table {r : PageDirectoryEntry × ℕ} {pt pt' : PageTable} {pfn : UInt64}
    {writable : Bool} (hget : mlpt.directory[pageIdx vAddr / 1024]? = some pde)
    (hensure : mlpt.ensure vAddr pde = r) (hpt : r.1.pageTable = some pt)
    (hmap : pt.mapPage (MultiLevelPageTable.pteIdx vAddr) pfn writable = some pt') :
    mlpt.map vAddr pfn writable = some { mlpt with
      directory := mlpt.directory.set (pageIdx vAddr / 1024) { r.1 with pageTable := some pt' }
      allocatedPTs := r.2 } := by
  -- rewriting keeps the kernel from evaluating the masks
  unfold MultiLevelPageTable.map
  rw [pdeIdx_eq, hget, Option.bind_eq_bind, Option.bind_some, hensure, hpt, Option.bind_eq_bind,
    Option.bind_some, hmap, Option.bind_some]

theorem translate_of_table (hget : mlpt.directory[pageIdx vAddr / 1024]? = some pde)
    (hvalid : pde.valid = true) (hpt : pde.pageTable = some pt)
    (hentry : pt.entries[pageIdx vAddr % 1024]? = some e) (isWrite : Bool) :
    mlpt.translate vAddr isWrite = some (mlpt.translateEntry vAddr isWrite pde pt e) := by
  have hint : ¬ goInt (MultiLevelPageTable.pteIdx vAddr) ≥ pt.entries.length := by
    obtain ⟨hlt, -⟩ := List.getElem?_eq_some_iff.mp hentry
    have hle := goInt_le (MultiLevelPageTable.pteIdx vAddr)
    rw [pteIdx_eq] at hle
    omega
  unfold MultiLevelPageTable.translate
  rw [pdeIdx_eq, hget, Option.bind_eq_bind, Option.bind_some, hvalid, if_neg (by simp), hpt,
    Option.bind_eq_bind, Option.bind_some, if_neg hint, pteIdx_eq, hentry, Option.bind_eq_bind,
    Option.bind_some]

/-- `Map` finds a page table of the right size for the region, a blank one if there was none. -/
theorem ensure_spec (h : TwoLevelOk mlpt)
    (hget : mlpt.directory[pageIdx vAddr / 1024]? = some pde) :
    ∃ pde' pt allocated, mlpt.ensure vAddr pde = (pde', allocated) ∧ pde'.valid = true ∧
      pde'.pageTable = some pt ∧ pt.entries.length = 1024 ∧
      (LazyBlocks.block (blocks mlpt) (pageIdx vAddr / 1024)).getD (List.replicate 1024 {}) =
        pt.entries ∧
      ((HasTable mlpt (pageIdx vAddr / 1024) ∧ allocated = mlpt.allocatedPTs) ∨
        (¬ HasTable mlpt (pageIdx vAddr / 1024) ∧ allocated = mlpt.allocatedPTs + 1)) := by
  unfold MultiLevelPageTable.ensure
  cases hvalid : pde.valid with
  | true =>
    obtain ⟨pt, hpt, hblock, hlen⟩ := h.exists_table hget hvalid
    rw [if_neg (by simp)]
    refine ⟨pde, pt, _, rfl, hvalid, hpt, hlen, ?_, .inl ⟨?_, rfl⟩⟩
    · rw [hblock, Option.getD_some]
    · rw [HasTable, hblock]
      rfl
  | false =>
    have hblock := block_of_invalid hget hvalid
    have hnew : (newPageTable mlpt.pid mlpt.tableSize mlpt.pageSize).entries =
        List.replicate 1024 {} := by
      show List.replicate mlpt.tableSize ({} : PageTableEntry) = _
      rw [h.tableSize_eq]
    rw [if_pos (by simp)]
    refine ⟨_, newPageTable mlpt.pid mlpt.tableSize mlpt.pageSize, _, rfl, rfl, rfl, ?_, ?_,
      .inr ⟨?_, rfl⟩⟩
    · rw [hnew, List.length_replicate]
    · rw [hblock, Option.getD_none, hnew]
    · rw [HasTable, hblock]
      exact Bool.false_ne_true

/-- **`Map` writes the cell of the page**, and makes a page table for the region if there is
none. -/
theorem map_spec (h : TwoLevelOk mlpt) (vAddr pfn : UInt64) (writable : Bool) :
    ∃ mlpt', mlpt.map vAddr pfn writable = some mlpt' ∧ TwoLevelOk mlpt' ∧
      (∀ i, pageEntry mlpt' i =
        if i = pageIdx vAddr then mappedEntry pfn writable else pageEntry mlpt i) ∧
      (∀ k, HasTable mlpt' k ↔ k = pageIdx vAddr / 1024 ∨ HasTable mlpt k) ∧
      ((HasTable mlpt (pageIdx vAddr / 1024) ∧ mlpt'.allocatedPTs = mlpt.allocatedPTs) ∨
        (¬ HasTable mlpt (pageIdx vAddr / 1024) ∧
          mlpt'.allocatedPTs = mlpt.allocatedPTs + 1)) := by
  obtain ⟨pde, hget⟩ := h.exists_pde vAddr
  obtain ⟨pde', pt, allocated, hensure, hvalid, hpt, hlen, hentries, hcount⟩ := ensure_spec h hget
  have hpte : (MultiLevelPageTable.pteIdx vAddr).toNat < pt.entries.length := by
    rw [pteIdx_eq, hlen]
    exact Nat.mod_lt _ (by omega)
  obtain ⟨hok, hentry, htable⟩ := h.stored hvalid hentries (mappedEntry pfn writable) allocated
  refine ⟨_, ?_, hok, hentry, htable, hcount⟩
  rw [map_of_table hget hensure hpt (mapPage_of_lt hpte pfn writable), pteIdx_eq]
  rfl

/-- The translation `t`, which leads to `mlpt'`, is the check of the cell of the page. -/
structure Translated (vAddr : UInt64) (isWrite : Bool) (mlpt : MultiLevelPageTable) (t : Translation)
    (mlpt' : MultiLevelPageTable) : Prop where
  ok : TwoLevelOk mlpt'
  outcome_eq :
    outcome t = entryOutcome 4096 (vAddr % 4096) isWrite (pageEntry mlpt (pageIdx vAddr))
  entry_eq : ∀ i, pageEntry mlpt' i = if i = pageIdx vAddr then
    entryAfter isWrite (pageEntry mlpt (pageIdx vAddr)) else pageEntry mlpt i
  table_iff : ∀ k, HasTable mlpt' k ↔ HasTable mlpt k
  allocated_eq : mlpt'.allocatedPTs = mlpt.allocatedPTs

/-- A fault leaves the table as it is. -/
theorem translated_of_fault (h : TwoLevelOk mlpt) {t : Translation} {isWrite : Bool}
    {kind : PagingFault} (hcheck : checkEntry isWrite (pageEntry mlpt (pageIdx vAddr)) = some kind)
    (ht : outcome t = .fault kind) : Translated vAddr isWrite mlpt t mlpt := by
  obtain ⟨houtcome, hafter⟩ := entryOutcome_of_fault hcheck 4096 (vAddr % 4096)
  refine ⟨h, ht.trans houtcome.symm, fun i => ?_, fun k => Iff.rfl, rfl⟩
  rw [hafter]
  split_ifs with hi
  · rw [hi]
  · rfl

theorem translateEntry_of_fault {isWrite : Bool} {kind : PagingFault}
    (hcheck : checkEntry isWrite e = some kind) :
    ∃ t, mlpt.translateEntry vAddr isWrite pde pt e = (t, mlpt) ∧ outcome t = .fault kind := by
  unfold MultiLevelPageTable.translateEntry
  unfold checkEntry at hcheck
  split_ifs at hcheck ⊢ <;> (cases hcheck; exact ⟨_, rfl, rfl⟩)

theorem translateEntry_of_ok {isWrite : Bool} (hsize : mlpt.pageSize = 4096)
    (hcheck : checkEntry isWrite e = none) :
    ∃ t, mlpt.translateEntry vAddr isWrite pde pt e =
        (t, stored mlpt vAddr pde pt (e.track isWrite) mlpt.allocatedPTs) ∧
      outcome t = .address (e.pfn * 4096 + vAddr % 4096) := by
  unfold MultiLevelPageTable.translateEntry
  unfold checkEntry at hcheck
  split_ifs at hcheck ⊢
  rw [pdeIdx_eq, pteIdx_eq, offset_eq]
  refine ⟨_, rfl, ?_⟩
  show TranslateOutcome.address (e.pfn * mlpt.pageSize + vAddr % 4096) = _
  rw [hsize]

theorem translateEntry_spec (h : TwoLevelOk mlpt) (hvalid : pde.valid = true)
    (hblock : LazyBlocks.block (blocks mlpt) (pageIdx vAddr / 1024) = some pt.entries)
    (isWrite : Bool) :
    let r := mlpt.translateEntry vAddr isWrite pde pt (pageEntry mlpt (pageIdx vAddr))
    Translated vAddr isWrite mlpt r.1 r.2 := by
  intro r
  cases hcheck : checkEntry isWrite (pageEntry mlpt (pageIdx vAddr)) with
  | some kind =>
    obtain ⟨t, hr, ht⟩ : ∃ t, r = (t, mlpt) ∧ outcome t = .fault kind :=
      translateEntry_of_fault hcheck
    rw [hr]
    exact translated_of_fault h hcheck ht
  | none =>
    obtain ⟨t, hr, ht⟩ : ∃ t, r = (t, _) ∧ _ := translateEntry_of_ok h.pageSize_eq hcheck
    obtain ⟨houtcome, hafter⟩ := entryOutcome_of_ok hcheck 4096 (vAddr % 4096)
    have hentries : (LazyBlocks.block (blocks mlpt) (pageIdx vAddr / 1024)).getD
        (List.replicate 1024 {}) = pt.entries := by rw [hblock, Option.getD_some]
    obtain ⟨hok, hentry, htable⟩ := h.stored hvalid hentries
      ((pageEntry mlpt (pageIdx vAddr)).track isWrite) mlpt.allocatedPTs
    rw [hr]
    refine ⟨hok, ht.trans houtcome.symm, fun i => ?_, fun k => ?_, rfl⟩
    · rw [hentry, hafter]
    · rw [htable, or_iff_right_of_imp]
      rintro rfl
      rw [HasTable, hblock]
      rfl

/-- **`Translate` is the check of the cell of the page.** -/
theorem translate_spec (h : TwoLevelOk mlpt) (vAddr : UInt64) (isWrite : Bool) :
    ∃ t mlpt', mlpt.translate vAddr isWrite = some (t, mlpt') ∧
      Translated vAddr isWrite mlpt t mlpt' := by
  obtain ⟨pde, hget⟩ := h.exists_pde vAddr
  cases hvalid : pde.valid with
  | false =>
    have hblank : pageEntry mlpt (pageIdx vAddr) = {} := by
      rw [pageEntry, LazyBlocks.cell, block_of_invalid hget hvalid]
      rfl
    have hcheck : checkEntry isWrite (pageEntry mlpt (pageIdx vAddr)) = some .invalidPage := by
      rw [hblank]
      rfl
    unfold MultiLevelPageTable.translate
    rw [pdeIdx_eq, hget, Option.bind_eq_bind, Option.bind_some, hvalid, if_pos (by simp)]
    exact ⟨_, mlpt, rfl, translated_of_fault h hcheck rfl⟩
  | true =>
    obtain ⟨pt, hpt, hblock, hlen⟩ := h.exists_table hget hvalid
    have hpte : pageIdx vAddr % 1024 < pt.entries.length := by
      rw [hlen]
      exact Nat.mod_lt _ (by omega)
    have hentry : pt.entries[pageIdx vAddr % 1024]? = some (pageEntry mlpt (pageIdx vAddr)) := by
      rw [pageEntry, LazyBlocks.cell, hblock, Option.bind_some, List.getElem?_eq_getElem hpte,
        Option.getD_some]
    rw [translate_of_table hget hvalid hpt hentry]
    exact ⟨_, _, rfl, translateEntry_spec h hvalid hblock isWrite⟩

end Directory

end OsSimulator.Interface
