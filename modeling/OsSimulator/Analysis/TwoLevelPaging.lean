import OsSimulator.Interface.TwoLevelView
import Mathlib.Data.Finset.Card

/-!
# The two-level page table against the linear one

The same operations are run on a two-level page table and on a linear one of `2 ^ 20` entries.
The two stay in correspondence (`Corresponds`): page `i` has the same entry in both, a page
without a second-level table counting as blank, and the second-level tables are those of the
mapped regions.  Each operation keeps the correspondence (`Corresponds.step`), so every
translation has the same outcome (`twoLevel_agrees_linear`).

That is for addresses below `2 ^ 32`.  The code masks the bits above, and larger addresses are
aliases of smaller ones (`translatesOnlyMapped_iff`).
-/

set_option autoImplicit false

namespace OsSimulator.Analysis

open Model Interface

/-! ## The two machines -/

/-- An operation on the page table of a process. -/
inductive TableOp where
  | map (vAddr pfn : UInt64) (writable : Bool)
  | translate (vAddr : UInt64) (isWrite : Bool)
deriving DecidableEq, Repr

namespace TableOp

def vAddr : TableOp → UInt64
  | map vAddr _ _ => vAddr
  | translate vAddr _ => vAddr

/-- The 4 MB region that the operation maps a page of. -/
def region : TableOp → Option ℕ
  | map vAddr _ _ => some (vAddr.toNat / 2 ^ 22)
  | translate _ _ => none

end TableOp

/-- The operation on the two-level table, with what a translation returns. -/
def twoLevelStep (mlpt : MultiLevelPageTable) : TableOp → Option (Option Translation × MultiLevelPageTable)
  | .map vAddr pfn writable => (mlpt.map vAddr pfn writable).map fun mlpt => (none, mlpt)
  | .translate vAddr isWrite => (mlpt.translate vAddr isWrite).map fun r => (some r.1, r.2)

/-- The operation on the linear table. -/
def linearStep (pt : PageTable) : TableOp → Option (Option Translation × PageTable)
  | .map vAddr pfn writable => (pt.mapPage (vAddr / 4096) pfn writable).map fun pt => (none, pt)
  | .translate vAddr isWrite => (pt.translate vAddr isWrite).map fun r => (some r.1, r.2)

/-- What the operations return, and the final state; `none` after a panic. -/
def runOps {σ : Type} (step : σ → TableOp → Option (Option Translation × σ)) (s : σ) :
    List TableOp → Option (List (Option Translation) × σ)
  | [] => some ([], s)
  | op :: ops => (step s op).bind fun r => (runOps step r.2 ops).map fun rs => (r.1 :: rs.1, rs.2)

/-- The regions mapped by the operations. -/
def mappedRegions (ops : List TableOp) : Finset ℕ := (ops.filterMap TableOp.region).toFinset

/-! ## The correspondence -/

/-- The two tables have the same entries, and `regions` have second-level tables. -/
structure Corresponds (regions : Finset ℕ) (mlpt : MultiLevelPageTable) (pt : PageTable) : Prop where
  ok : TwoLevelOk mlpt
  pageSize_eq : pt.pageSize = 4096
  length_eq : pt.entries.length = 2 ^ 20
  entry_eq : ∀ i < 2 ^ 20, pt.entries[i]? = some (pageEntry mlpt i)
  table_iff : ∀ k, HasTable mlpt k ↔ k ∈ regions
  allocated_eq : mlpt.allocatedPTs = regions.card

section Steps

variable {regions : Finset ℕ} {mlpt mlpt' : MultiLevelPageTable} {pt : PageTable} {vAddr : UInt64}

theorem pageIdx_eq (hvAddr : vAddr.toNat < 2 ^ 32) : pageIdx vAddr = (vAddr / 4096).toNat := by
  rw [UInt64.toNat_div]
  show vAddr.toNat / 4096 % 2 ^ 20 = vAddr.toNat / 4096
  omega

theorem pageIdx_lt (vAddr : UInt64) : pageIdx vAddr < 2 ^ 20 := Nat.mod_lt _ (by omega)

/-- A write of the same entry keeps the correspondence of the entries. -/
theorem Corresponds.entry_set (h : Corresponds regions mlpt pt) (hvAddr : vAddr.toNat < 2 ^ 32)
    {e : PageTableEntry}
    (hentry : ∀ i, pageEntry mlpt' i = if i = pageIdx vAddr then e else pageEntry mlpt i) :
    ∀ i < 2 ^ 20, (pt.entries.set (vAddr / 4096).toNat e)[i]? = some (pageEntry mlpt' i) := by
  intro i hi
  rw [hentry, ← pageIdx_eq hvAddr]
  by_cases hidx : i = pageIdx vAddr
  · rw [if_pos hidx, hidx, List.getElem?_set_self (by rw [h.length_eq]; exact pageIdx_lt vAddr)]
  · rw [if_neg hidx, List.getElem?_set_ne (Ne.symm hidx), h.entry_eq i hi]

/-- Mapping a page. -/
theorem Corresponds.map (h : Corresponds regions mlpt pt) (hvAddr : vAddr.toNat < 2 ^ 32)
    (pfn : UInt64) (writable : Bool) :
    ∃ mlpt' pt', mlpt.map vAddr pfn writable = some mlpt' ∧
      pt.mapPage (vAddr / 4096) pfn writable = some pt' ∧
      Corresponds (insert (vAddr.toNat / 2 ^ 22) regions) mlpt' pt' := by
  obtain ⟨mlpt', hmap, hok, hentry, htable, hcount⟩ := map_spec h.ok vAddr pfn writable
  have hregion : pageIdx vAddr / 1024 = vAddr.toNat / 2 ^ 22 := by
    unfold pageIdx
    omega
  have hlt : (vAddr / 4096).toNat < pt.entries.length := by
    rw [h.length_eq, ← pageIdx_eq hvAddr]
    exact pageIdx_lt vAddr
  rw [hregion, h.table_iff] at hcount
  refine ⟨mlpt', _, hmap, mapPage_of_lt hlt pfn writable, hok, h.pageSize_eq, ?_,
    h.entry_set hvAddr hentry, fun k => ?_, ?_⟩
  · rw [List.length_set]
    exact h.length_eq
  · rw [htable, hregion, h.table_iff, Finset.mem_insert]
  · rcases hcount with ⟨hmem, hcount⟩ | ⟨hnot, hcount⟩
    · rw [hcount, h.allocated_eq, Finset.insert_eq_of_mem hmem]
    · rw [hcount, h.allocated_eq, Finset.card_insert_of_notMem hnot]

/-- Translating an address. -/
theorem Corresponds.translate (h : Corresponds regions mlpt pt) (hvAddr : vAddr.toNat < 2 ^ 32)
    (isWrite : Bool) :
    ∃ t mlpt' t' pt', mlpt.translate vAddr isWrite = some (t, mlpt') ∧
      pt.translate vAddr isWrite = some (t', pt') ∧ outcome t = outcome t' ∧
      Corresponds regions mlpt' pt' := by
  obtain ⟨t, mlpt', htranslate, hspec⟩ := translate_spec h.ok vAddr isWrite
  have hsize : pt.pageSize ≠ 0 := by
    rw [h.pageSize_eq]
    decide
  have hget : pt.entries[(vAddr / pt.pageSize).toNat]? =
      some (pageEntry mlpt (pageIdx vAddr)) := by
    rw [h.pageSize_eq, ← pageIdx_eq hvAddr]
    exact h.entry_eq _ (pageIdx_lt vAddr)
  obtain ⟨t', hlinear, houtcome⟩ := translate_of_entry hsize hget isWrite
  rw [h.pageSize_eq] at hlinear houtcome
  refine ⟨t, mlpt', t', _, htranslate, hlinear, hspec.outcome_eq.trans houtcome.symm, hspec.ok,
    rfl, ?_, h.entry_set hvAddr hspec.entry_eq, fun k => ?_, ?_⟩
  · rw [List.length_set]
    exact h.length_eq
  · rw [hspec.table_iff, h.table_iff]
  · rw [hspec.allocated_eq, h.allocated_eq]

/-- **One operation** keeps the correspondence and has the same outcome. -/
theorem Corresponds.step (h : Corresponds regions mlpt pt) (op : TableOp)
    (hop : op.vAddr.toNat < 2 ^ 32) :
    ∃ r mlpt' r' pt', twoLevelStep mlpt op = some (r, mlpt') ∧
      linearStep pt op = some (r', pt') ∧ r.map outcome = r'.map outcome ∧
      Corresponds (regions ∪ mappedRegions [op]) mlpt' pt' := by
  cases op with
  | map vAddr pfn writable =>
    have hvAddr : vAddr.toNat < 2 ^ 32 := hop
    obtain ⟨mlpt', pt', hmap, hmap', hnext⟩ := h.map hvAddr pfn writable
    refine ⟨none, mlpt', none, pt', ?_, ?_, rfl, ?_⟩
    · rw [twoLevelStep, hmap, Option.map_some]
    · rw [linearStep, hmap', Option.map_some]
    · have hunion : regions ∪ mappedRegions [.map vAddr pfn writable] =
          insert (vAddr.toNat / 2 ^ 22) regions := by
        rw [Finset.union_comm]
        rfl
      rw [hunion]
      exact hnext
  | translate vAddr isWrite =>
    have hvAddr : vAddr.toNat < 2 ^ 32 := hop
    obtain ⟨t, mlpt', t', pt', ht, ht', houtcome, hnext⟩ := h.translate hvAddr isWrite
    refine ⟨some t, mlpt', some t', pt', ?_, ?_, ?_, ?_⟩
    · rw [twoLevelStep, ht, Option.map_some]
    · rw [linearStep, ht', Option.map_some]
    · rw [Option.map_some, Option.map_some, houtcome]
    · have hnone : regions ∪ mappedRegions [.translate vAddr isWrite] = regions :=
        Finset.union_empty regions
      rw [hnone]
      exact hnext

theorem mappedRegions_cons (op : TableOp) (ops : List TableOp) :
    mappedRegions (op :: ops) = mappedRegions [op] ∪ mappedRegions ops := by
  unfold mappedRegions
  rw [← List.singleton_append, List.filterMap_append, List.toFinset_append]

/-- **A run** keeps the correspondence, and all outcomes are the same. -/
theorem Corresponds.run (h : Corresponds regions mlpt pt) (ops : List TableOp)
    (hops : ∀ op ∈ ops, op.vAddr.toNat < 2 ^ 32) :
    ∃ rs mlpt' rs' pt', runOps twoLevelStep mlpt ops = some (rs, mlpt') ∧
      runOps linearStep pt ops = some (rs', pt') ∧
      rs.map (Option.map outcome) = rs'.map (Option.map outcome) ∧
      Corresponds (regions ∪ mappedRegions ops) mlpt' pt' := by
  induction ops generalizing regions mlpt pt with
  | nil => exact ⟨[], mlpt, [], pt, rfl, rfl, rfl, (Finset.union_empty regions).symm ▸ h⟩
  | cons op ops ih =>
    obtain ⟨hop, hops⟩ := List.forall_mem_cons.mp hops
    obtain ⟨r, mlpt₁, r', pt₁, hstep, hstep', hr, hnext⟩ := h.step op hop
    obtain ⟨rs, mlpt', rs', pt', hrun, hrun', hrs, hlast⟩ := ih hnext hops
    refine ⟨r :: rs, mlpt', r' :: rs', pt', ?_, ?_, ?_, ?_⟩
    · rw [runOps, hstep, Option.bind_some, hrun, Option.map_some]
    · rw [runOps, hstep', Option.bind_some, hrun', Option.map_some]
    · rw [List.map_cons, List.map_cons, hr, hrs]
    · rw [mappedRegions_cons, ← Finset.union_assoc]
      exact hlast

end Steps

/-- New tables correspond. -/
theorem corresponds_new (pid : ℤ) :
    Corresponds ∅ (newMultiLevelPageTable pid) (newPageTable pid (2 ^ 20) 4096) := by
  have hblocks : blocks (newMultiLevelPageTable pid) = List.replicate 1024 none :=
    List.map_replicate
  have hnone : ∀ k, OsSimulator.Library.LazyBlocks.block (blocks (newMultiLevelPageTable pid)) k =
      none := by
    intro k
    rw [hblocks]
    exact OsSimulator.Library.LazyBlocks.block_replicate 1024 k
  refine ⟨⟨rfl, rfl, List.length_replicate, ?_, ?_⟩, rfl, List.length_replicate, ?_, ?_, rfl⟩
  · intro k b hb
    rw [hnone k] at hb
    cases hb
  · intro pde hpde hvalid
    rw [List.eq_of_mem_replicate hpde] at hvalid
    cases hvalid
  · intro i hi
    rw [pageEntry, OsSimulator.Library.LazyBlocks.cell, hnone]
    exact List.getElem?_replicate_of_lt hi
  · intro k
    rw [HasTable, hnone]
    simp

/-- **The two-level page table agrees with the linear one**: for addresses below `2 ^ 32` no
operation panics, every translation has the same outcome, every page has the same entry, with its
accessed and dirty bits, and the second-level tables are as many as the 4 MB regions mapped.
SOURCE: pkg/memory/multilevel_pt.go:40-87 -/
theorem twoLevel_agrees_linear (pid : ℤ) (ops : List TableOp)
    (hops : ∀ op ∈ ops, op.vAddr.toNat < 2 ^ 32) :
    ∃ rs mlpt rs' pt, runOps twoLevelStep (newMultiLevelPageTable pid) ops = some (rs, mlpt) ∧
      runOps linearStep (newPageTable pid (2 ^ 20) 4096) ops = some (rs', pt) ∧
      rs.map (Option.map outcome) = rs'.map (Option.map outcome) ∧
      (∀ i < 2 ^ 20, pt.entries[i]? = some (pageEntry mlpt i)) ∧
      mlpt.allocatedPTs = (mappedRegions ops).card := by
  obtain ⟨rs, mlpt, rs', pt, hrun, hrun', hrs, hlast⟩ := (corresponds_new pid).run ops hops
  rw [Finset.empty_union] at hlast
  exact ⟨rs, mlpt, rs', pt, hrun, hrun', hrs, hlast.entry_eq, hlast.allocated_eq⟩

/-- Pages on both sides of a region boundary, one of them read-only, and one of them mapped
again. -/
def boundaryOps : List TableOp :=
  [.map 0x3FFFFF 7 false, .map 0x400000 8 true, .translate 0x3FFFFF true, .translate 0x400010 true,
    .map 0x400000 9 true, .translate 0xFFFFFFFF false]

theorem twoLevel_agrees_linear_boundary :
    (∀ op ∈ boundaryOps, op.vAddr.toNat < 2 ^ 32) ∧ (mappedRegions boundaryOps).card = 2 ∧
      ∃ rs mlpt rs' pt, runOps twoLevelStep (newMultiLevelPageTable 1) boundaryOps = some (rs, mlpt) ∧
        runOps linearStep (newPageTable 1 (2 ^ 20) 4096) boundaryOps = some (rs', pt) ∧
        rs.map (Option.map outcome) = rs'.map (Option.map outcome) ∧
        (∀ i < 2 ^ 20, pt.entries[i]? = some (pageEntry mlpt i)) ∧
        mlpt.allocatedPTs = (mappedRegions boundaryOps).card := by
  have hops : ∀ op ∈ boundaryOps, op.vAddr.toNat < 2 ^ 32 := by decide
  exact ⟨hops, by decide, twoLevel_agrees_linear 1 boundaryOps hops⟩

/-! ## Larger addresses -/

/-- The address that the operation maps. -/
def TableOp.mapped : TableOp → Option UInt64
  | map vAddr _ _ => some vAddr
  | translate _ _ => none

/-- Some operation maps an address in the page of `vAddr`. -/
def MapsPage (ops : List TableOp) (vAddr : UInt64) : Prop :=
  ∃ a ∈ ops.filterMap TableOp.mapped, a.toNat / 4096 = vAddr.toNat / 4096

/-- Some operation maps an address with the same 20 bits above the offset. -/
def MapsIndex (ops : List TableOp) (i : ℕ) : Prop :=
  ∃ a ∈ ops.filterMap TableOp.mapped, pageIdx a = i

/-- After the operations, an address is invalid unless its page has been mapped. -/
def TranslatesOnlyMapped (pid : ℤ) (ops : List TableOp) (vAddr : UInt64) (isWrite : Bool) : Prop :=
  ∃ rs mlpt t mlpt', runOps twoLevelStep (newMultiLevelPageTable pid) ops = some (rs, mlpt) ∧
    mlpt.translate vAddr isWrite = some (t, mlpt') ∧
    (outcome t ≠ .fault .invalidPage → MapsPage ops vAddr)

section Aliases

variable {mlpt : MultiLevelPageTable}

/-- **One operation** makes the page valid that it maps. -/
theorem twoLevelStep_valid (h : TwoLevelOk mlpt) (op : TableOp) :
    ∃ r mlpt', twoLevelStep mlpt op = some (r, mlpt') ∧ TwoLevelOk mlpt' ∧
      ∀ i, (pageEntry mlpt' i).valid = true ↔
        (pageEntry mlpt i).valid = true ∨ MapsIndex [op] i := by
  cases op with
  | map vAddr pfn writable =>
    obtain ⟨mlpt', hmap, hok, hentry, -⟩ := map_spec h vAddr pfn writable
    refine ⟨none, mlpt', by rw [twoLevelStep, hmap, Option.map_some], hok, fun i => ?_⟩
    have hmaps : MapsIndex [.map vAddr pfn writable] i ↔ pageIdx vAddr = i := by
      simp [MapsIndex, TableOp.mapped]
    rw [hentry, hmaps]
    by_cases hi : i = pageIdx vAddr
    · rw [if_pos hi]
      exact iff_of_true rfl (.inr hi.symm)
    · rw [if_neg hi, or_iff_left (Ne.symm hi)]
  | translate vAddr isWrite =>
    obtain ⟨t, mlpt', htranslate, hspec⟩ := translate_spec h vAddr isWrite
    refine ⟨some t, mlpt', by rw [twoLevelStep, htranslate, Option.map_some], hspec.ok,
      fun i => ?_⟩
    have hmaps : ¬ MapsIndex [.translate vAddr isWrite] i := by
      simp [MapsIndex, TableOp.mapped]
    rw [hspec.entry_eq, or_iff_left hmaps]
    by_cases hi : i = pageIdx vAddr
    · rw [if_pos hi, valid_entryAfter, hi]
    · rw [if_neg hi]

theorem mapsIndex_cons_iff (op : TableOp) (ops : List TableOp) (i : ℕ) :
    MapsIndex (op :: ops) i ↔ MapsIndex [op] i ∨ MapsIndex ops i := by
  unfold MapsIndex
  rw [← List.singleton_append, List.filterMap_append]
  simp only [List.mem_append, or_and_right, exists_or]

/-- **A run** does not panic, and leaves the pages valid whose index was mapped. -/
theorem runOps_valid (h : TwoLevelOk mlpt) (ops : List TableOp) :
    ∃ rs mlpt', runOps twoLevelStep mlpt ops = some (rs, mlpt') ∧ TwoLevelOk mlpt' ∧
      ∀ i, (pageEntry mlpt' i).valid = true ↔
        (pageEntry mlpt i).valid = true ∨ MapsIndex ops i := by
  induction ops generalizing mlpt with
  | nil => exact ⟨[], mlpt, rfl, h, fun i => by simp [MapsIndex]⟩
  | cons op ops ih =>
    obtain ⟨r, mlpt₁, hstep, hok, hvalid⟩ := twoLevelStep_valid h op
    obtain ⟨rs, mlpt', hrun, hok', hvalid'⟩ := ih hok
    refine ⟨r :: rs, mlpt', ?_, hok', fun i => ?_⟩
    · rw [runOps, hstep, Option.bind_some, hrun, Option.map_some]
    · rw [hvalid', hvalid, mapsIndex_cons_iff op ops i, or_assoc]

/-- After any operations, a translation is valid if and only if the index was mapped. -/
theorem translate_valid_iff (pid : ℤ) (ops : List TableOp) (vAddr : UInt64) (isWrite : Bool) :
    ∃ rs mlpt t mlpt', runOps twoLevelStep (newMultiLevelPageTable pid) ops = some (rs, mlpt) ∧
      mlpt.translate vAddr isWrite = some (t, mlpt') ∧
      (outcome t ≠ .fault .invalidPage ↔ MapsIndex ops (pageIdx vAddr)) := by
  have hnew := corresponds_new pid
  obtain ⟨rs, mlpt, hrun, hok, hvalid⟩ := runOps_valid hnew.ok ops
  obtain ⟨t, mlpt', htranslate, hspec⟩ := translate_spec hok vAddr isWrite
  have hblank : (pageEntry (newMultiLevelPageTable pid) (pageIdx vAddr)).valid = false := by
    have hentry := hnew.entry_eq _ (pageIdx_lt vAddr)
    rw [List.eq_of_mem_replicate (List.mem_of_getElem? hentry)]
  refine ⟨rs, mlpt, t, mlpt', hrun, htranslate, ?_⟩
  rw [hspec.outcome_eq, Ne, entryOutcome_eq_invalid_iff, Bool.not_eq_false, hvalid, hblank]
  exact or_iff_right Bool.false_ne_true

/-- The outcome is determined by the operations and the address. -/
theorem TranslatesOnlyMapped.mapsPage {pid : ℤ} {ops : List TableOp} {vAddr : UInt64}
    {isWrite : Bool} (h : TranslatesOnlyMapped pid ops vAddr isWrite)
    (hindex : MapsIndex ops (pageIdx vAddr)) : MapsPage ops vAddr := by
  obtain ⟨rs, mlpt, t, mlpt', hrun, htranslate, honly⟩ := h
  obtain ⟨rs₁, mlpt₁, t₁, mlpt₁', hrun₁, htranslate₁, hvalid⟩ :=
    translate_valid_iff pid ops vAddr isWrite
  obtain ⟨-, rfl⟩ := Prod.mk.inj (Option.some.inj (hrun.symm.trans hrun₁))
  obtain ⟨rfl, -⟩ := Prod.mk.inj (Option.some.inj (htranslate.symm.trans htranslate₁))
  exact honly (hvalid.mpr hindex)

end Aliases

/-- **The two-level table translates only what was mapped, up to aliases**: the bits from `32` on
are ignored, so that it does exactly if a mapped address with the index of `vAddr` comes with one in
the page of `vAddr`.
SOURCE: pkg/memory/multilevel_pt.go:40-87 -/
theorem translatesOnlyMapped_iff (pid : ℤ) (ops : List TableOp) (vAddr : UInt64) (isWrite : Bool) :
    TranslatesOnlyMapped pid ops vAddr isWrite ↔
      (MapsIndex ops (pageIdx vAddr) → MapsPage ops vAddr) := by
  refine ⟨TranslatesOnlyMapped.mapsPage, fun honly => ?_⟩
  obtain ⟨rs, mlpt, t, mlpt', hrun, htranslate, hvalid⟩ := translate_valid_iff pid ops vAddr isWrite
  exact ⟨rs, mlpt, t, mlpt', hrun, htranslate, fun hne => honly (hvalid.mp hne)⟩

/-- Page `0` is mapped, and address `2 ^ 32` is translated. -/
theorem alias_translated :
    ¬ MapsPage [.map 0 7 true] 0x100000000 ∧
      ¬ TranslatesOnlyMapped 1 [.map 0 7 true] 0x100000000 false := by
  have hpage : ¬ MapsPage [.map 0 7 true] 0x100000000 := by
    rintro ⟨a, ha, heq⟩
    obtain rfl : a = 0 := by simpa [TableOp.mapped] using ha
    exact absurd heq (by decide)
  have hindex : MapsIndex [.map 0 7 true] (pageIdx 0x100000000) :=
    ⟨0, by simp [TableOp.mapped], by decide⟩
  exact ⟨hpage, fun honly => hpage (honly.mapsPage hindex)⟩

end OsSimulator.Analysis
