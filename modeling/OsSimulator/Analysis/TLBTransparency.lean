import OsSimulator.Analysis.PagingFrames

/-!
# The TLB does not show

`bare` forgets the TLB and the dirty bits of the page tables: what is left is a memory
manager whose TLB has no slots, so that every access walks the page table.  An access of a
consistent system and the same access of its bare form return the same and are the same
afterwards up to what `bare` forgets (`access_bare`).  On a hit that is because the TLB entry
is a translation of the page table (`TLBAgrees`), and because both paths make the same
changes to the frame.  The dirty bits are forgotten because a write that hits does not set
them.

Two systems that start with the same bare form therefore behave the same along any sequence
of calls, whatever their TLBs are (`tlb_transparent`).
-/

set_option autoImplicit false

namespace OsSimulator.Analysis

open Model Interface

/-! ## Forgetting the TLB -/

/-- A TLB without slots. -/
def noTLB : TLB := { entries := [] }

def bareManager (mm : MemoryManager) : MemoryManager := { mm with tlb := noTLB }

def bareEntry (e : PageTableEntry) : PageTableEntry := { e with dirty := false }

def bareTable (pt : PageTable) : PageTable := { pt with entries := pt.entries.map bareEntry }

def bare (s : PagingSystem) : PagingSystem := ⟨bareManager s.mm, fun pid => bareTable (s.tables pid)⟩

section Manager

variable (mm : MemoryManager)

theorem chooseVictim_bare :
    (bareManager mm).chooseVictim = mm.chooseVictim.map fun r => (r.1, bareManager r.2) := by
  have hpolicy : (bareManager mm).policy = mm.policy := rfl
  unfold MemoryManager.chooseVictim
  rw [hpolicy]
  cases hp : mm.policy with
  | fifo => rfl
  | lru => rfl
  | other name => rfl
  | clock =>
    dsimp only
    rw [Option.map_map]
    rfl

theorem allocateFrame_bare (pid : ℤ) (vpn : UInt64) :
    (bareManager mm).allocateFrame pid vpn =
      (mm.allocateFrame pid vpn).map fun r => (r.1, r.2.1, r.2.2.1, bareManager r.2.2.2) := by
  have hvictim := chooseVictim_bare { mm with pageEvictions := mm.pageEvictions + 1 }
  unfold MemoryManager.allocateFrame
  simp only [bareManager] at hvictim ⊢
  rw [hvictim]
  cases mm.frames.findIdx? fun f => !f.isOccupied with
  | some i => rfl
  | none =>
    dsimp only
    cases MemoryManager.chooseVictim { mm with pageEvictions := mm.pageEvictions + 1 } with
    | none => rfl
    | some r =>
      obtain ⟨victimIdx, mm₁⟩ := r
      dsimp only [Option.map_some]
      cases mm₁.frames[victimIdx]? with
      | none => rfl
      | some victim =>
        dsimp only
        cases victim.isDirty <;> rfl

theorem touchFrame_bare (pfn : UInt64) (isWrite : Bool) :
    (bareManager mm).touchFrame pfn isWrite = (mm.touchFrame pfn isWrite).map bareManager := by
  unfold MemoryManager.touchFrame
  show (if pfn.toNat < mm.frames.length then _ else _) = _
  split <;> rfl

theorem pageFault_bare (pid : ℤ) (vpn : UInt64) (pte : PageTableEntry) :
    (bareManager mm).pageFault pid vpn (bareEntry pte) =
      (mm.pageFault pid vpn pte).map fun r => (bareManager r.1, bareEntry r.2) := by
  have halloc := allocateFrame_bare
    { mm with pageFaults := mm.pageFaults + 1, swapReads := mm.swapReads + 1 } pid vpn
  unfold MemoryManager.pageFault
  simp only [bareManager] at halloc ⊢
  rw [halloc]
  cases MemoryManager.allocateFrame pid vpn
      { mm with pageFaults := mm.pageFaults + 1, swapReads := mm.swapReads + 1 } with
  | none => rfl
  | some r => rfl

theorem bareTable_set (pt : PageTable) (i : ℕ) (e : PageTableEntry) :
    bareTable { pt with entries := pt.entries.set i e } =
      { pt with entries := (pt.entries.map bareEntry).set i (bareEntry e) } := by
  unfold bareTable
  rw [List.map_set]

theorem bareTable_bareTable (pt : PageTable) : bareTable (bareTable pt) = bareTable pt := by
  unfold bareTable
  rw [List.map_map]
  rfl

end Manager

/-! ## One access -/

/-- What an access comes to, without the TLB and the dirty bits. -/
def bareOutcome (r : AccessResult × MemoryManager × PageTable) :
    AccessResult × MemoryManager × PageTable :=
  (r.1, bareManager r.2.1, bareTable r.2.2)

section Access

variable {mm : MemoryManager} {pt : PageTable} {vAddr : UInt64} {isWrite : Bool}

/-- Two managers with the same bare form touch a frame alike. -/
theorem touchFrame_congr {mm' : MemoryManager} (h : bareManager mm' = bareManager mm) (pfn : UInt64)
    (isWrite : Bool) :
    (mm'.touchFrame pfn isWrite).map bareManager = (mm.touchFrame pfn isWrite).map bareManager := by
  rw [← touchFrame_bare, ← touchFrame_bare, h]

theorem finishAccess_bare (mm : MemoryManager) (pt : PageTable) (vpn offset : UInt64)
    (isWrite : Bool) (pte : PageTableEntry) :
    bareOutcome ((bareManager mm).finishAccess (bareTable pt) vpn offset isWrite (bareEntry pte)) =
      bareOutcome (mm.finishAccess pt vpn offset isWrite pte) := by
  let mm₁ : MemoryManager := { mm with tlb := mm.tlb.insert pt.pid vpn pte.pfn pte.readWrite }
  let mm₂ : MemoryManager :=
    { bareManager mm with tlb := (bareManager mm).tlb.insert pt.pid vpn pte.pfn pte.readWrite }
  have hbare : bareManager mm₂ = bareManager mm₁ := rfl
  have htouch := touchFrame_congr hbare pte.pfn isWrite
  have hset : ∀ e e', bareEntry e' = bareEntry e →
      bareTable { bareTable pt with entries := (bareTable pt).entries.set vpn.toNat e' } =
        bareTable { pt with entries := pt.entries.set vpn.toNat e } := by
    intro e e' he
    have hmap : (bareTable pt).entries.map bareEntry = pt.entries.map bareEntry :=
      congrArg PageTable.entries (bareTable_bareTable pt)
    rw [bareTable_set, bareTable_set, he, hmap]
    rfl
  cases h₁ : mm₁.touchFrame pte.pfn isWrite with
  | none =>
    rw [h₁, Option.map_none, Option.map_eq_none_iff] at htouch
    have hfinish : (bareManager mm).finishAccess (bareTable pt) vpn offset isWrite (bareEntry pte) =
        _ := finishAccess_of_noFrame htouch
    rw [finishAccess_of_noFrame h₁, hfinish]
    exact Prod.ext rfl (Prod.ext rfl (hset pte _ rfl))
  | some mm' =>
    rw [h₁, Option.map_some, Option.map_eq_some_iff] at htouch
    obtain ⟨mm'', h₂, hbare⟩ := htouch
    have hfinish : (bareManager mm).finishAccess (bareTable pt) vpn offset isWrite (bareEntry pte) =
        _ := finishAccess_of_touch h₂
    rw [finishAccess_of_touch h₁, hfinish]
    exact Prod.ext rfl (Prod.ext hbare (hset _ _ rfl))

theorem walk_bare (mm : MemoryManager) (pt : PageTable) (vAddr : UInt64) (isWrite : Bool) :
    bareOutcome (walk (bareTable pt) vAddr isWrite (bareManager mm)) =
      bareOutcome (walk pt vAddr isWrite mm) := by
  have hsame : ∀ r, bareOutcome (r, bareManager mm, bareTable pt) = bareOutcome (r, mm, pt) := by
    intro r
    unfold bareOutcome
    rw [bareTable_bareTable]
    rfl
  have hlen : (bareTable pt).entries.length = pt.entries.length := List.length_map ..
  have hbare : ∀ e, pt.entries[(vAddr / pt.pageSize).toNat]? = e →
      (bareTable pt).entries[(vAddr / (bareTable pt).pageSize).toNat]? = e.map bareEntry := by
    rintro _ rfl
    exact List.getElem?_map ..
  cases hget : pt.entries[(vAddr / pt.pageSize).toNat]? with
  | none =>
    rw [walk_of_none hget, walk_of_none (hbare none hget), hlen]
    exact hsame _
  | some pte =>
    have hget' := hbare (some pte) hget
    rw [Option.map_some] at hget'
    cases hvalid : pte.valid with
    | false =>
      rw [walk_of_invalid hget hvalid, walk_of_invalid hget' hvalid]
      exact hsame _
    | true =>
      cases hpresent : pte.present with
      | true =>
        rw [walk_of_present hget hvalid hpresent, walk_of_present hget' hvalid hpresent]
        exact finishAccess_bare ..
      | false =>
        have hfault' := pageFault_bare mm pt.pid (vAddr / pt.pageSize) pte
        cases hfault : mm.pageFault pt.pid (vAddr / pt.pageSize) pte with
        | none =>
          rw [hfault, Option.map_none] at hfault'
          rw [walk_of_noFrame hget hvalid hpresent hfault,
            walk_of_noFrame hget' hvalid hpresent hfault']
          exact hsame _
        | some r =>
          rw [hfault, Option.map_some] at hfault'
          rw [walk_of_absent hget hvalid hpresent hfault,
            walk_of_absent hget' hvalid hpresent hfault']
          exact finishAccess_bare ..

/-- The walk depends on the bare forms only. -/
theorem walk_congr {mm' : MemoryManager} (h : bareManager mm' = bareManager mm) :
    bareOutcome (walk (bareTable pt) vAddr isWrite mm') =
      bareOutcome (walk pt vAddr isWrite mm) := by
  rw [← walk_bare, ← walk_bare mm pt, bareTable_bareTable, h]

/-- On a hit the walk would have done the same. -/
theorem walk_of_hit {pfn : UInt64} {pte : PageTableEntry} {mm' : MemoryManager}
    (hget : pt.entries[(vAddr / pt.pageSize).toNat]? = some pte) (hvalid : pte.valid = true)
    (hpresent : pte.present = true) (hpfn : pte.pfn = pfn)
    (htouch : mm.touchFrame pfn isWrite = some mm') :
    bareOutcome (walk pt vAddr isWrite mm) =
      bareOutcome (.ok (pfn * pt.pageSize + vAddr % pt.pageSize), mm', pt) := by
  subst hpfn
  let mm₁ : MemoryManager :=
    { mm with tlb := mm.tlb.insert pt.pid (vAddr / pt.pageSize) pte.pfn pte.readWrite }
  have hsameBare : bareManager mm₁ = bareManager mm := rfl
  have htouch' := touchFrame_congr hsameBare pte.pfn isWrite
  rw [htouch, Option.map_some, Option.map_eq_some_iff] at htouch'
  obtain ⟨mm'', htouch', hbare⟩ := htouch'
  have hsame : (pt.entries.map bareEntry)[(vAddr / pt.pageSize).toNat]? = some (bareEntry pte) := by
    rw [List.getElem?_map, hget]
    rfl
  have htable : bareTable
      { pt with
        entries := pt.entries.set (vAddr / pt.pageSize).toNat
          { pte with dirty := isWrite || pte.dirty } } = bareTable pt := by
    obtain ⟨hlt', heq⟩ := List.getElem?_eq_some_iff.mp hsame
    rw [bareTable_set]
    show { pt with entries := (pt.entries.map bareEntry).set _ (bareEntry pte) } = bareTable pt
    rw [← heq, List.set_getElem_self]
    rfl
  rw [walk_of_present hget hvalid hpresent]
  unfold MemoryManager.finishAccess
  dsimp only
  rw [htouch']
  unfold bareOutcome
  dsimp only
  rw [hbare, htable]

end Access

/-! ## Whole runs -/

section Runs

variable {s : PagingSystem}

/-- **One access**: the system and its bare form return the same, and stay the same. -/
theorem access_bare (hs : PagingOk s) (c : MemoryAccess) :
    ((bare s).access c).1 = (s.access c).1 ∧ bare ((bare s).access c).2 = bare (s.access c).2 := by
  -- both follow from the outcome of `AccessMemory`
  suffices hout : bareOutcome ((bareManager s.mm).accessMemory (bareTable (s.tables c.pid)) c.vAddr
      c.isWrite) = bareOutcome (s.mm.accessMemory (s.tables c.pid) c.vAddr c.isWrite) by
    obtain ⟨hres, hmm, htable⟩ := Prod.ext_iff.mp hout |>.imp id Prod.ext_iff.mp
    refine ⟨hres, ?_⟩
    refine congrArg₂ PagingSystem.mk hmm (funext fun pid => ?_)
    show bareTable (Function.update (fun pid => bareTable (s.tables pid)) c.pid _ pid) =
      bareTable (Function.update s.tables c.pid _ pid)
    by_cases hpid : pid = c.pid
    · rw [hpid, Function.update_self, Function.update_self]
      exact htable
    · rw [Function.update_of_ne hpid, Function.update_of_ne hpid]
      exact bareTable_bareTable _
  by_cases hsize : (s.tables c.pid).pageSize = 0
  · have hzero : (bareTable (s.tables c.pid)).pageSize = 0 := hsize
    unfold MemoryManager.accessMemory
    rw [if_pos hsize, if_pos hzero]
    unfold bareOutcome
    rw [bareTable_bareTable]
    rfl
  · have hbare : bareManager (afterLookup (bareTable (s.tables c.pid)) c.vAddr (bareManager s.mm)) =
        bareManager (afterLookup (s.tables c.pid) c.vAddr s.mm) := rfl
    have hmiss : ((bareManager s.mm).tlb.lookup (bareTable (s.tables c.pid)).pid
        (c.vAddr / (bareTable (s.tables c.pid)).pageSize)).1 = none := rfl
    have hsize' : (bareTable (s.tables c.pid)).pageSize ≠ 0 := hsize
    rw [accessMemory_of_miss hsize' hmiss, walk_congr hbare]
    cases hhit : (s.mm.tlb.lookup (s.tables c.pid).pid
        (c.vAddr / (s.tables c.pid).pageSize)).1 with
    | none => rw [accessMemory_of_miss hsize hhit]
    | some pfn =>
      have hframe := lookup_eq_some hhit hs.tlb
      rw [hs.pid_eq] at hframe
      obtain ⟨pte, hget, hvalid, hpresent, hpfn⟩ := entry_of_tableFrame hframe
      have htouch := touchFrame_of_lt (afterLookup (s.tables c.pid) c.vAddr s.mm)
        (hs.manager.length_eq.symm ▸ hs.frame_lt hframe) c.isWrite
      rw [walk_of_hit hget hvalid hpresent hpfn htouch, accessMemory_of_hit hsize hhit htouch]

/-- Systems with the same bare form behave alike along any sequence of calls. -/
theorem run_congr {s₁ s₂ : PagingSystem} (h₁ : PagingOk s₁) (h₂ : PagingOk s₂)
    (hbare : bare s₁ = bare s₂) (calls : List MemoryAccess) :
    s₁.results calls = s₂.results calls ∧ bare (s₁.run calls) = bare (s₂.run calls) := by
  induction calls generalizing s₁ s₂ with
  | nil => exact ⟨rfl, hbare⟩
  | cons c calls ih =>
    obtain ⟨hres₁, hafter₁⟩ := access_bare h₁ c
    obtain ⟨hres₂, hafter₂⟩ := access_bare h₂ c
    have hres : (s₁.access c).1 = (s₂.access c).1 := by rw [← hres₁, hbare, hres₂]
    have hafter : bare (s₁.access c).2 = bare (s₂.access c).2 := by
      rw [← hafter₁, hbare, hafter₂]
    obtain ⟨hresults, hrun⟩ := ih (access_spec h₁ c).ok (access_spec h₂ c).ok hafter
    exact ⟨congrArg₂ List.cons hres hresults, hrun⟩

end Runs

/-- The parts of two memory managers that the TLB has nothing to do with. -/
structure SamePaging (mm₁ mm₂ : MemoryManager) : Prop where
  frames : mm₁.frames = mm₂.frames
  clockHand : mm₁.clockHand = mm₂.clockHand
  pageFaults : mm₁.pageFaults = mm₂.pageFaults
  pageEvictions : mm₁.pageEvictions = mm₂.pageEvictions
  swapReads : mm₁.swapReads = mm₂.swapReads
  swapWrites : mm₁.swapWrites = mm₂.swapWrites

theorem samePaging_of_bare {mm₁ mm₂ : MemoryManager} (h : bareManager mm₁ = bareManager mm₂) :
    SamePaging mm₁ mm₂ := by
  unfold bareManager at h
  rw [MemoryManager.mk.injEq] at h
  obtain ⟨-, hframes, hhand, -, -, hfaults, hevictions, hwrites, hreads, -, -⟩ := h
  exact ⟨hframes, hhand, hfaults, hevictions, hreads, hwrites⟩

/-- The same setup with a TLB of another capacity. -/
def PagingSetup.withTLB (S : PagingSetup) (tlbCapacity : Int64) : PagingSetup :=
  { S with tlbCapacity }

/-- **The TLB is transparent.**  With TLBs of any two capacities, every sequence of calls
returns the same addresses and errors and leaves the same frames, clock hand and counters.
SOURCE: pkg/memory/page_replacement.go:65-204 -/
theorem tlb_transparent (S : PagingSetup) (capacity₁ capacity₂ : Int64)
    (calls : List MemoryAccess) :
    (S.withTLB capacity₁).init.results calls = (S.withTLB capacity₂).init.results calls ∧
      SamePaging ((S.withTLB capacity₁).after calls).mm ((S.withTLB capacity₂).after calls).mm := by
  have hinit : bare (S.withTLB capacity₁).init = bare (S.withTLB capacity₂).init := by
    unfold bare PagingSetup.init PagingSetup.withTLB newMemoryManager bareManager
    rfl
  obtain ⟨hresults, hrun⟩ := run_congr (pagingOk_init (S.withTLB capacity₁))
    (pagingOk_init (S.withTLB capacity₂)) hinit calls
  exact ⟨hresults, samePaging_of_bare (congrArg PagingSystem.mm hrun)⟩

end OsSimulator.Analysis
