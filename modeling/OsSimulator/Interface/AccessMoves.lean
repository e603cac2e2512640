import OsSimulator.Interface.FrameTable

/-!
# What an access can do

`AccessMove` has one constructor for each branch of `AccessMemory`, with what the branch tests and
the state it leaves.  `access_moves` says that these are all, for any page tables: the entries may
have been written by `MapPage` and lead outside the frame table, in which case the access panics
(`hitsOutside`, `walksOutside`).

What holds of every access is read off from it: an entry is written by a successful call that
misses the TLB only (`AccessMove.tables_cases`), a translation is kept or made
(`AccessMove.tableFrame_cases`), and the system stays `Consistent`.
-/

set_option autoImplicit false

namespace OsSimulator.Interface

open Model Library

/-! ## The branches -/

section Terms

variable (c : MemoryAccess) (s : PagingSystem)

/-- The page that a call touches. -/
def accessedPage : Page := (c.pid, c.vAddr / (s.tables c.pid).pageSize)

/-- The page-table entry for the address of a call. -/
def accessedEntry : Option PageTableEntry :=
  (s.tables c.pid).entries[(accessedPage c s).2.toNat]?

/-- The frame that the TLB has for the accessed page. -/
def tlbFrame : Option UInt64 := (s.mm.tlb.lookup (s.tables c.pid).pid (accessedPage c s).2).1

/-- The memory manager after the tick and the TLB lookup of a call. -/
def lookedUp : MemoryManager :=
  { s.mm with
    currentTick := s.mm.currentTick + 1
    tlb := (s.mm.tlb.lookup (s.tables c.pid).pid (accessedPage c s).2).2 }

/-- The memory manager when the page fault has been counted. -/
def faulted : MemoryManager :=
  { lookedUp c s with
    pageFaults := s.mm.pageFaults + 1
    swapReads := s.mm.swapReads + 1 }

/-- The accessed address in a frame. -/
def addressIn (pfn : UInt64) : UInt64 :=
  pfn * (s.tables c.pid).pageSize + c.vAddr % (s.tables c.pid).pageSize

/-- The TLB when the lookup has missed and the page is cached. -/
def cachedIn (pfn : UInt64) (writable : Bool) : TLB :=
  (lookedUp c s).tlb.insert (s.tables c.pid).pid (accessedPage c s).2 pfn writable

/-- The page tables with another entry for the accessed page. -/
def withEntry (e : PageTableEntry) : ℤ → PageTable :=
  Function.update s.tables c.pid
    { s.tables c.pid with
      entries := (s.tables c.pid).entries.set (accessedPage c s).2.toNat e }

/-- The memory manager when the accessed page has been loaded into frame `i` of the given frames. -/
def afterLoad (i hand : ℕ) (frames : List FrameInfo) (evictions writes : ℕ) (writable : Bool)
    (history : List String) : MemoryManager :=
  { lookedUp c s with
    tlb := cachedIn c s (UInt64.ofNat i) writable
    frames := frames.set i
      (loaded (s.mm.currentTick + 1) c.isWrite i ((s.tables c.pid).pid, (accessedPage c s).2))
    clockHand := hand
    pageFaults := s.mm.pageFaults + 1
    swapReads := s.mm.swapReads + 1
    pageEvictions := s.mm.pageEvictions + evictions
    swapWrites := s.mm.swapWrites + writes
    history }

end Terms

/-- An entry when the access is over. -/
def accessedAs (isWrite : Bool) (e : PageTableEntry) : PageTableEntry :=
  { e with dirty := isWrite || e.dirty }

/-- An entry whose page has been loaded into frame `i`. -/
def loadedAs (i : ℕ) (e : PageTableEntry) : PageTableEntry :=
  { e with present := true, pfn := UInt64.ofNat i, accessed := true }

/-- An access that misses the TLB and finds a valid entry. -/
structure Walks (c : MemoryAccess) (s : PagingSystem) (pte : PageTableEntry) : Prop where
  size_pos : (s.tables c.pid).pageSize ≠ 0
  missed : tlbFrame c s = none
  entry_eq : accessedEntry c s = some pte
  valid : pte.valid = true

/-- **What a call of `AccessMemory` returns and leaves**, branch by branch.
SOURCE: pkg/memory/page_replacement.go:65-124 -/
inductive AccessMove (c : MemoryAccess) (s : PagingSystem) : AccessResult → PagingSystem → Prop where
  | divides (zero : (s.tables c.pid).pageSize = 0) :
      AccessMove c s .panic ⟨{ s.mm with currentTick := s.mm.currentTick + 1 }, s.tables⟩
  | rejects (size_pos : (s.tables c.pid).pageSize ≠ 0) (missed : tlbFrame c s = none)
      (invalid : ∀ pte, accessedEntry c s = some pte → pte.valid = false)
      (beyond : accessedEntry c s = none →
        goInt (accessedPage c s).2 ≥ (s.tables c.pid).entries.length) :
      AccessMove c s (notMapped (accessedPage c s).2) ⟨lookedUp c s, s.tables⟩
  | overruns (size_pos : (s.tables c.pid).pageSize ≠ 0) (missed : tlbFrame c s = none)
      (noEntry : accessedEntry c s = none)
      (passed : ¬ goInt (accessedPage c s).2 ≥ (s.tables c.pid).entries.length) :
      AccessMove c s .panic ⟨lookedUp c s, s.tables⟩
  | hits {pfn : UInt64} (size_pos : (s.tables c.pid).pageSize ≠ 0)
      (cached : tlbFrame c s = some pfn) (lt : pfn.toNat < s.mm.numFrames) :
      AccessMove c s (.ok (addressIn c s pfn))
        ⟨{ lookedUp c s with
          frames := s.mm.frames.modify pfn.toNat (touched (s.mm.currentTick + 1) c.isWrite) },
          s.tables⟩
  | hitsOutside {pfn : UInt64} (size_pos : (s.tables c.pid).pageSize ≠ 0)
      (cached : tlbFrame c s = some pfn) (ge : s.mm.numFrames ≤ pfn.toNat) :
      AccessMove c s .panic ⟨lookedUp c s, s.tables⟩
  | walks {pte : PageTableEntry} (walk : Walks c s pte) (present : pte.present = true)
      (lt : pte.pfn.toNat < s.mm.numFrames) :
      AccessMove c s (.ok (addressIn c s pte.pfn))
        ⟨{ lookedUp c s with
          tlb := cachedIn c s pte.pfn pte.readWrite
          frames := s.mm.frames.modify pte.pfn.toNat
            (touched (s.mm.currentTick + 1) c.isWrite) },
          withEntry c s (accessedAs c.isWrite pte)⟩
  | walksOutside {pte : PageTableEntry} (walk : Walks c s pte) (present : pte.present = true)
      (ge : s.mm.numFrames ≤ pte.pfn.toNat) :
      AccessMove c s .panic
        ⟨{ lookedUp c s with tlb := cachedIn c s pte.pfn pte.readWrite }, s.tables⟩
  | fills {pte : PageTableEntry} {i : ℕ} {history : List String} (walk : Walks c s pte)
      (absent : pte.present = false) (lt : i < s.mm.numFrames)
      (free : s.mm.frames.findIdx? (fun f => !f.isOccupied) = some i) :
      AccessMove c s (.ok (addressIn c s (UInt64.ofNat i)))
        ⟨afterLoad c s i s.mm.clockHand s.mm.frames 0 0 pte.readWrite history,
          withEntry c s (accessedAs c.isWrite (loadedAs i pte))⟩
  | evicts {pte : PageTableEntry} {i hand : ℕ} {frames : List FrameInfo} {victim : FrameInfo}
      {history : List String} (walk : Walks c s pte) (absent : pte.present = false)
      (lt : i < s.mm.numFrames) (full : ∀ f ∈ s.mm.frames, f.isOccupied = true)
      (found : victimOf s.mm.policy s.mm.numFrames s.mm.clockHand s.mm.frames =
        some (i, hand, frames)) (victim_eq : frames[i]? = some victim) :
      AccessMove c s (.ok (addressIn c s (UInt64.ofNat i)))
        ⟨afterLoad c s i hand frames 1 victim.isDirty.toNat pte.readWrite history,
          withEntry c s (accessedAs c.isWrite (loadedAs i pte))⟩

/-! ## These are all -/

section Moves

variable {c : MemoryAccess} {s : PagingSystem}

variable {pte : PageTableEntry} {mm : MemoryManager}

/-- A call whose branch of `AccessMemory` leaves the table as it is. -/
theorem access_of_kept {r : AccessResult}
    (h : s.mm.accessMemory (s.tables c.pid) c.vAddr c.isWrite = (r, mm, s.tables c.pid)) :
    s.access c = (r, ⟨mm, s.tables⟩) := by
  unfold PagingSystem.access
  rw [h]
  dsimp only
  rw [Function.update_eq_self]

theorem access_of_walk (hsize : (s.tables c.pid).pageSize ≠ 0) (hmiss : tlbFrame c s = none) :
    s.mm.accessMemory (s.tables c.pid) c.vAddr c.isWrite =
      walk (s.tables c.pid) c.vAddr c.isWrite (lookedUp c s) :=
  accessMemory_of_miss hsize hmiss

/-- The branch of a TLB hit. -/
theorem access_moves_of_hit (hmm : ManagerOk s.mm) (hsize : (s.tables c.pid).pageSize ≠ 0)
    {pfn : UInt64} (hhit : tlbFrame c s = some pfn) :
    AccessMove c s (s.access c).1 (s.access c).2 := by
  have hlen : (lookedUp c s).frames.length = s.mm.numFrames := hmm.length_eq
  by_cases hlt : pfn.toNat < s.mm.numFrames
  · have htouch := touchFrame_of_lt (lookedUp c s) (hlen ▸ hlt) c.isWrite
    rw [access_of_kept (accessMemory_of_hit hsize hhit htouch)]
    exact .hits hsize hhit hlt
  · have htouch := touchFrame_of_ge (lookedUp c s) (hlen ▸ Nat.not_lt.mp hlt) c.isWrite
    have hpanic : s.mm.accessMemory (s.tables c.pid) c.vAddr c.isWrite =
        (.panic, lookedUp c s, s.tables c.pid) := accessMemory_of_hit_outside hsize hhit htouch
    rw [access_of_kept hpanic]
    exact .hitsOutside hsize hhit (Nat.not_lt.mp hlt)

/-- The branch of a page that is present. -/
theorem access_moves_of_present (hmm : ManagerOk s.mm) (hwalk : Walks c s pte)
    (hpresent : pte.present = true) : AccessMove c s (s.access c).1 (s.access c).2 := by
  have hlen : (lookedUp c s).frames.length = s.mm.numFrames := hmm.length_eq
  have hbranch : s.mm.accessMemory (s.tables c.pid) c.vAddr c.isWrite =
      (lookedUp c s).finishAccess (s.tables c.pid) (accessedPage c s).2
        (c.vAddr % (s.tables c.pid).pageSize) c.isWrite pte :=
    (access_of_walk hwalk.size_pos hwalk.missed).trans
      (walk_of_present hwalk.entry_eq hwalk.valid hpresent)
  let mm₁ : MemoryManager := { lookedUp c s with tlb := cachedIn c s pte.pfn pte.readWrite }
  by_cases hlt : pte.pfn.toNat < s.mm.numFrames
  · have htouch := touchFrame_of_lt mm₁ (hlen ▸ hlt) c.isWrite
    rw [finishAccess_of_touch htouch] at hbranch
    unfold PagingSystem.access
    rw [hbranch]
    exact .walks hwalk hpresent hlt
  · have htouch := touchFrame_of_ge mm₁ (hlen ▸ Nat.not_lt.mp hlt) c.isWrite
    rw [finishAccess_of_noFrame htouch, set_self hwalk.entry_eq] at hbranch
    rw [access_of_kept hbranch]
    exact .walksOutside hwalk hpresent (Nat.not_lt.mp hlt)

/-- What is left to do when the page is in frame `i`. -/
theorem finishAccess_of_loaded {pt : PageTable} {vpn offset : UInt64} {isWrite : Bool}
    {frames : List FrameInfo} {i : ℕ} {f : FrameInfo} (hframes : mm.frames = frames.set i f)
    (hlt : i < frames.length) (hpfn : pte.pfn.toNat = i) :
    mm.finishAccess pt vpn offset isWrite pte =
      (.ok (pte.pfn * pt.pageSize + offset),
        { mm with
          tlb := mm.tlb.insert pt.pid vpn pte.pfn pte.readWrite
          frames := frames.set i (touched mm.currentTick isWrite f) },
        { pt with entries := pt.entries.set vpn.toNat (accessedAs isWrite pte) }) := by
  have hlen : pte.pfn.toNat < mm.frames.length := by
    rw [hframes, List.length_set, hpfn]
    exact hlt
  have htouch := touchFrame_of_lt
    { mm with tlb := mm.tlb.insert pt.pid vpn pte.pfn pte.readWrite } hlen isWrite
  rw [finishAccess_of_touch htouch, hframes, hpfn,
    modify_eq_set (List.getElem?_set_self hlt), List.set_set]
  rfl

/-- The branch of a page fault, when a frame has been found. -/
theorem access_of_allocated (hwalk : Walks c s pte) (habsent : pte.present = false)
    {pfn evicted : UInt64} {was : Bool}
    (halloc : (faulted c s).allocateFrame (s.tables c.pid).pid (accessedPage c s).2 =
      some (pfn, evicted, was, mm)) :
    ∃ history, s.mm.accessMemory (s.tables c.pid) c.vAddr c.isWrite =
      MemoryManager.finishAccess (s.tables c.pid) (accessedPage c s).2
        (c.vAddr % (s.tables c.pid).pageSize) c.isWrite
        { pte with present := true, pfn, accessed := true } { mm with history } := by
  obtain ⟨history, hfault⟩ :=
    @pageFault_of_allocated (lookedUp c s) _ _ _ _ _ _ halloc pte
  exact ⟨history, (access_of_walk hwalk.size_pos hwalk.missed).trans
    (walk_of_absent hwalk.entry_eq hwalk.valid habsent hfault)⟩

/-- The branch of a page fault. -/
theorem access_moves_of_absent (hmm : ManagerOk s.mm) (hwalk : Walks c s pte)
    (habsent : pte.present = false) : AccessMove c s (s.access c).1 (s.access c).2 := by
  unfold PagingSystem.access
  cases hfree : s.mm.frames.findIdx? (fun f => !f.isOccupied) with
  | some i =>
    obtain ⟨hi, -, -⟩ := List.findIdx?_eq_some_iff_getElem.mp hfree
    have hlt : i < s.mm.numFrames := hmm.length_eq ▸ hi
    obtain ⟨history, hbranch⟩ :=
      access_of_allocated hwalk habsent (@allocateFrame_of_free (faulted c s) i hfree _ _)
    rw [hbranch, finishAccess_of_loaded rfl hi (toNat_ofNat_of_lt hmm hlt)]
    exact @AccessMove.fills c s pte i history hwalk habsent hlt hfree
  | none =>
    have hfull := findIdx_free_eq_none_iff.mp hfree
    obtain ⟨i, hand, d, hfound, hlt, -⟩ := exists_victim hmm
    have hi : i < (mapArc passed s.mm.clockHand d s.mm.frames).length := by
      rw [length_mapArc, hmm.length_eq]
      exact hlt
    have hvictim := List.getElem?_eq_getElem hi
    obtain ⟨history, hbranch⟩ :=
      access_of_allocated hwalk habsent
        (@allocateFrame_of_full (faulted c s) _ hfull _ _ _ hfound hvictim _ _)
    rw [hbranch, finishAccess_of_loaded rfl hi (toNat_ofNat_of_lt hmm hlt)]
    exact @AccessMove.evicts c s pte i hand _ _ history hwalk habsent hlt hfull hfound hvictim

/-- **Every call is one of the moves.** -/
theorem access_moves (hmm : ManagerOk s.mm) (c : MemoryAccess) :
    AccessMove c s (s.access c).1 (s.access c).2 := by
  by_cases hsize : (s.tables c.pid).pageSize = 0
  · have hpanic : s.mm.accessMemory (s.tables c.pid) c.vAddr c.isWrite =
        (.panic, { s.mm with currentTick := s.mm.currentTick + 1 }, s.tables c.pid) := by
      unfold MemoryManager.accessMemory
      rw [if_pos hsize]
    rw [access_of_kept hpanic]
    exact .divides hsize
  cases hhit : tlbFrame c s with
  | some pfn => exact access_moves_of_hit hmm hsize hhit
  | none =>
    have hbranch := access_of_walk hsize hhit
    cases hget : accessedEntry c s with
    | none =>
      rw [walk_of_none hget] at hbranch
      rw [access_of_kept hbranch]
      split_ifs with hint
      · exact .rejects hsize hhit (by simp [hget]) fun _ => hint
      · exact .overruns hsize hhit hget hint
    | some pte =>
      cases hvalid : pte.valid with
      | false =>
        rw [walk_of_invalid hget hvalid] at hbranch
        rw [access_of_kept hbranch]
        exact .rejects hsize hhit (by simp [hget, hvalid]) (by simp [hget])
      | true =>
        have hwalk : Walks c s pte := ⟨hsize, hhit, hget, hvalid⟩
        cases hpresent : pte.present with
        | true => exact access_moves_of_present hmm hwalk hpresent
        | false => exact access_moves_of_absent hmm hwalk hpresent

end Moves

/-! ## What an access leaves -/

/-- The number of frames and the page sizes never change. -/
structure SameShape (s s' : PagingSystem) : Prop where
  numFrames_eq : s'.mm.numFrames = s.mm.numFrames
  pageSize_eq : ∀ pid, (s'.tables pid).pageSize = (s.tables pid).pageSize

section Leaves

variable {c : MemoryAccess} {s s' : PagingSystem} {r : AccessResult} {pte : PageTableEntry}

/-! ### Page tables -/

/-- What does not depend on the entry is the same for all tables. -/
theorem withEntry_field {β : Type*} (g : PageTable → β) (c : MemoryAccess) (s : PagingSystem)
    (e : PageTableEntry)
    (hg : g { s.tables c.pid with
      entries := (s.tables c.pid).entries.set (accessedPage c s).2.toNat e } = g (s.tables c.pid))
    (q : ℤ) : g (withEntry c s e q) = g (s.tables q) :=
  field_update g hg q

/-- **The page table after a move.**  Only a successful call that misses the TLB writes an entry. -/
theorem AccessMove.tables_cases (h : AccessMove c s r s') :
    (s'.tables = s.tables ∧ ¬ (tlbFrame c s = none ∧ ∃ a, r = .ok a)) ∨
      ∃ pte e, Walks c s pte ∧ (∃ a, r = .ok a) ∧ s'.tables = withEntry c s e ∧
        e.valid = pte.valid ∧ e.dirty = (c.isWrite || pte.dirty) := by
  have hcached : ∀ {pfn}, tlbFrame c s = some pfn → tlbFrame c s ≠ none := by
    intro pfn hpfn hnone
    cases hpfn.symm.trans hnone
  cases h with
  | divides zero => exact .inl ⟨rfl, by simp⟩
  | rejects size_pos missed invalid beyond => exact .inl ⟨rfl, by simp [notMapped]⟩
  | overruns size_pos missed noEntry passed => exact .inl ⟨rfl, by simp⟩
  | hits size_pos cached lt => exact .inl ⟨rfl, fun hmiss => hcached cached hmiss.1⟩
  | hitsOutside size_pos cached ge => exact .inl ⟨rfl, by simp⟩
  | walks walk present lt => exact .inr ⟨_, _, walk, ⟨_, rfl⟩, rfl, rfl, rfl⟩
  | walksOutside walk present ge => exact .inl ⟨rfl, by simp⟩
  | fills walk absent lt free => exact .inr ⟨_, _, walk, ⟨_, rfl⟩, rfl, rfl, rfl⟩
  | evicts walk absent lt full found victim_eq => exact .inr ⟨_, _, walk, ⟨_, rfl⟩, rfl, rfl, rfl⟩

/-- What a write to an entry does not change is not changed by an access. -/
theorem AccessMove.field_eq (h : AccessMove c s r s') {β : Type*} (g : PageTable → β)
    (hg : ∀ (pt : PageTable) i e, g { pt with entries := pt.entries.set i e } = g pt) (q : ℤ) :
    g (s'.tables q) = g (s.tables q) := by
  rcases h.tables_cases with ⟨htables, -⟩ | ⟨pte, e, -, -, htables, -⟩
  · rw [htables]
  · rw [htables]
    exact withEntry_field g c s e (hg ..) q

theorem AccessMove.sameShape (h : AccessMove c s r s') : SameShape s s' := by
  refine ⟨?_, h.field_eq PageTable.pageSize fun _ _ _ => rfl⟩
  cases h <;> rfl

/-- An access changes no valid bit. -/
theorem AccessMove.valid_eq (h : AccessMove c s r s') (q : ℤ) :
    (s'.tables q).entries.map PageTableEntry.valid =
      (s.tables q).entries.map PageTableEntry.valid := by
  rcases h.tables_cases with ⟨htables, -⟩ | ⟨pte, e, hwalk, -, htables, hvalid, -⟩
  · rw [htables]
  · rw [htables]
    refine withEntry_field (fun pt => pt.entries.map PageTableEntry.valid) c s e ?_ q
    show ((s.tables c.pid).entries.set _ e).map _ = _
    rw [List.map_set, hvalid, ← List.map_set, set_self hwalk.entry_eq]

/-! ### Translations -/

theorem tableFrame_accessed (hentry : accessedEntry c s = some pte) :
    tableFrame s.tables (accessedPage c s) = entryFrame pte :=
  congrArg (Option.bind · entryFrame) hentry

theorem tableFrame_withEntry (hentry : accessedEntry c s = some pte) (e : PageTableEntry) :
    tableFrame (withEntry c s e) =
      Function.update (tableFrame s.tables) (accessedPage c s) (entryFrame e) := by
  obtain ⟨hlt, -⟩ := List.getElem?_eq_some_iff.mp hentry
  exact tableFrame_set s.tables c.pid hlt e

/-- A write-back of the bits keeps the translations. -/
theorem tableFrame_accessedAs (hentry : accessedEntry c s = some pte) (isWrite : Bool) :
    tableFrame (withEntry c s (accessedAs isWrite pte)) = tableFrame s.tables := by
  rw [tableFrame_withEntry hentry, Function.update_eq_self_iff]
  exact (tableFrame_accessed hentry).symm

theorem Walks.untranslated (hwalk : Walks c s pte) (habsent : pte.present = false) :
    tableFrame s.tables (accessedPage c s) = none := by
  rw [tableFrame_accessed hwalk.entry_eq, entryFrame, habsent, Bool.and_false]
  rfl

theorem Walks.translated (hwalk : Walks c s pte) (hpresent : pte.present = true) :
    tableFrame s.tables (accessedPage c s) = some pte.pfn.toNat := by
  rw [tableFrame_accessed hwalk.entry_eq, entryFrame, hwalk.valid, hpresent]
  rfl

/-- The translations when the accessed page has been loaded. -/
theorem Walks.tableFrame_loaded (hwalk : Walks c s pte) (isWrite : Bool) (i : ℕ) :
    tableFrame (withEntry c s (accessedAs isWrite (loadedAs i pte))) =
      Function.update (tableFrame s.tables) (accessedPage c s) (some (UInt64.ofNat i).toNat) := by
  rw [tableFrame_withEntry hwalk.entry_eq]
  congr 1
  simp [entryFrame, accessedAs, loadedAs, hwalk.valid]

/-- **The translations after a move**: they are kept, or the accessed page gets one. -/
theorem AccessMove.tableFrame_cases (h : AccessMove c s r s') (hmm : ManagerOk s.mm) :
    tableFrame s'.tables = tableFrame s.tables ∨
      ∃ i < s.mm.numFrames, tableFrame s.tables (accessedPage c s) = none ∧
        (s.tables c.pid).pageSize ≠ 0 ∧
        tableFrame s'.tables =
          Function.update (tableFrame s.tables) (accessedPage c s) (some i) := by
  have hloads : ∀ {pte : PageTableEntry} {i : ℕ}, Walks c s pte → pte.present = false →
      i < s.mm.numFrames → ∃ i' < s.mm.numFrames, tableFrame s.tables (accessedPage c s) = none ∧
        (s.tables c.pid).pageSize ≠ 0 ∧
        tableFrame (withEntry c s (accessedAs c.isWrite (loadedAs i pte))) =
          Function.update (tableFrame s.tables) (accessedPage c s) (some i') := by
    intro pte i hwalk habsent hi
    have htables := hwalk.tableFrame_loaded c.isWrite i
    rw [toNat_ofNat_of_lt hmm hi] at htables
    exact ⟨i, hi, hwalk.untranslated habsent, hwalk.size_pos, htables⟩
  cases h with
  | divides zero => exact .inl rfl
  | rejects size_pos missed invalid beyond => exact .inl rfl
  | overruns size_pos missed noEntry passed => exact .inl rfl
  | hits size_pos cached lt => exact .inl rfl
  | hitsOutside size_pos cached ge => exact .inl rfl
  | walks walk present lt => exact .inl (tableFrame_accessedAs walk.entry_eq _)
  | walksOutside walk present ge => exact .inl rfl
  | fills walk absent lt free => exact .inr (hloads walk absent lt)
  | evicts walk absent lt full found victim_eq => exact .inr (hloads walk absent lt)

/-- No translation is withdrawn. -/
theorem AccessMove.tableFrame_mono (h : AccessMove c s r s') (hmm : ManagerOk s.mm) {p : Page}
    {f : ℕ} (hp : tableFrame s.tables p = some f) : tableFrame s'.tables p = some f := by
  rcases h.tableFrame_cases hmm with hkept | ⟨i, -, hnone, -, hmade⟩
  · rw [hkept]
    exact hp
  · have hne : p ≠ accessedPage c s := by
      rintro rfl
      cases hnone.symm.trans hp
    rw [hmade, Function.update_of_ne hne]
    exact hp

/-! ### The memory manager -/

/-- The frame table keeps its size, and the hand stays in it. -/
theorem ManagerOk.move (hmm : ManagerOk s.mm) (h : AccessMove c s r s') : ManagerOk s'.mm := by
  have hkept : ∀ {mm : MemoryManager}, mm.frames.length = s.mm.frames.length →
      mm.numFrames = s.mm.numFrames → mm.clockHand < s.mm.numFrames → ManagerOk mm := by
    intro mm hlen hnum hhand
    rw [← hnum] at hhand
    exact ⟨(hlen.trans hmm.length_eq).trans hnum.symm, hnum ▸ hmm.pos, hnum ▸ hmm.lt_word, hhand⟩
  cases h with
  | divides zero => exact hkept rfl rfl hmm.hand_lt
  | rejects size_pos missed invalid beyond => exact hkept rfl rfl hmm.hand_lt
  | overruns size_pos missed noEntry passed => exact hkept rfl rfl hmm.hand_lt
  | hits size_pos cached lt => exact hkept (List.length_modify ..) rfl hmm.hand_lt
  | hitsOutside size_pos cached ge => exact hkept rfl rfl hmm.hand_lt
  | walks walk present lt => exact hkept (List.length_modify ..) rfl hmm.hand_lt
  | walksOutside walk present ge => exact hkept rfl rfl hmm.hand_lt
  | fills walk absent lt free => exact hkept List.length_set rfl hmm.hand_lt
  | evicts walk absent lt full found victim_eq =>
    obtain ⟨-, hhand, d, rfl⟩ := victimOf_spec hmm found
    exact hkept (List.length_set.trans length_mapArc) rfl hhand

end Leaves

/-! ## Consistency -/

/-- The frame table has its size, and the TLB holds translations of the page tables. -/
structure Consistent (s : PagingSystem) : Prop where
  manager : ManagerOk s.mm
  pid_eq : ∀ pid, (s.tables pid).pid = pid
  tlb : TLBAgrees (tableFrame s.tables) s.mm.tlb

/-- A new memory manager is consistent with any page tables: its TLB is empty. -/
theorem consistent_new (numFrames : Int64) (policy : ReplacementPolicy) (tlbCapacity : Int64)
    {tables : ℤ → PageTable} (hpid : ∀ pid, (tables pid).pid = pid) :
    Consistent ⟨newMemoryManager numFrames policy tlbCapacity, tables⟩ := by
  refine ⟨managerOk_new _ _ _, hpid, fun e he hv => ?_⟩
  rw [List.eq_of_mem_replicate he] at hv
  cases hv

section Consistent

variable {c : MemoryAccess} {s s' : PagingSystem} {r : AccessResult}

/-- A page that the TLB holds is translated to the frame that it holds. -/
theorem Consistent.cached (hs : Consistent s) {pfn : UInt64} (hcached : tlbFrame c s = some pfn) :
    tableFrame s.tables (accessedPage c s) = some pfn.toNat := by
  have hframe := lookup_eq_some hcached hs.tlb
  rwa [hs.pid_eq] at hframe

/-- **Every access keeps the system consistent**: what the TLB held is still a translation, and
what it caches is one. -/
theorem Consistent.move (hs : Consistent s) (h : AccessMove c s r s') : Consistent s' := by
  have hpid : ∀ q, (s'.tables q).pid = q := fun q =>
    (h.field_eq PageTable.pid (fun _ _ _ => rfl) q).trans (hs.pid_eq q)
  refine ⟨hs.manager.move h, hpid, ?_⟩
  have hheld : TLBAgrees (tableFrame s'.tables) s.mm.tlb :=
    hs.tlb.mono fun _ _ hp => h.tableFrame_mono hs.manager hp
  have hlookedUp : TLBAgrees (tableFrame s'.tables) (lookedUp c s).tlb := hheld.lookup _ _
  have hcachedIn : ∀ pfn writable, tableFrame s'.tables (accessedPage c s) = some pfn.toNat →
      TLBAgrees (tableFrame s'.tables) (cachedIn c s pfn writable) := by
    intro pfn writable hpage
    refine hlookedUp.insert ?_ writable
    rw [hs.pid_eq]
    exact hpage
  cases h with
  | divides zero => exact hheld
  | rejects size_pos missed invalid beyond => exact hlookedUp
  | overruns size_pos missed noEntry passed => exact hlookedUp
  | hits size_pos cached lt => exact hlookedUp
  | hitsOutside size_pos cached ge => exact hlookedUp
  | walks walk present lt =>
    apply hcachedIn
    rw [tableFrame_accessedAs walk.entry_eq]
    exact walk.translated present
  | walksOutside walk present ge => exact hcachedIn _ _ (walk.translated present)
  | fills walk absent lt free =>
    apply hcachedIn
    rw [walk.tableFrame_loaded, Function.update_self]
  | evicts walk absent lt full found victim_eq =>
    apply hcachedIn
    rw [walk.tableFrame_loaded, Function.update_self]

/-- Every access keeps the memory consistent. -/
theorem Consistent.access (hs : Consistent s) (c : MemoryAccess) : Consistent (s.access c).2 :=
  hs.move (access_moves hs.manager c)

end Consistent

end OsSimulator.Interface
