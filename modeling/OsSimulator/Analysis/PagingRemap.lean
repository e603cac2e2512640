import OsSimulator.Interface.AccessMoves
import Mathlib.Data.List.Induction

/-!
# Remapped pages

`MapPage` writes a page-table entry and leaves the TLB alone.  When the TLB holds the page,
the next access hits and is translated through the old mapping (`remapped_page_twoFrames`).

An access that misses is translated through the entry of the page table, whatever has been
mapped, evicted or cached before, and it caches that entry.  So a run is coherent exactly when
no access hits a TLB entry for another address, and it is when `MapPage` is never called for
another frame on a page that is in the TLB (`translation_coherent`).
-/

set_option autoImplicit false

namespace OsSimulator.Analysis

open Model Interface

/-! ## The specification -/

/-- A new memory manager and page tables, one a PID. -/
structure RemapSetup where
  numFrames : Int64
  policy : ReplacementPolicy
  tlbCapacity : Int64
  tables : ℤ → PageTable
  pid_eq : ∀ pid, (tables pid).pid = pid

namespace RemapSetup

variable (S : RemapSetup)

def init : PagingSystem := ⟨newMemoryManager S.numFrames S.policy S.tlbCapacity, S.tables⟩

/-- The state after the given calls. -/
def after (events : List PagingEvent) : PagingSystem := events.foldl PagingSystem.handle S.init

end RemapSetup

/-- The physical address of a call by the page table. -/
def tableAddress (c : MemoryAccess) (s : PagingSystem) : Option UInt64 :=
  (accessedEntry c s).map fun e =>
    e.pfn * (s.tables c.pid).pageSize + c.vAddr % (s.tables c.pid).pageSize

/-- The frame that the TLB has for a page. -/
def cachedFrame (p : Page) (s : PagingSystem) : Option UInt64 := (s.mm.tlb.lookup p.1 p.2).1

/-- A call that succeeds, and hits a TLB entry for another address than the page table's. -/
def StaleHit (c : MemoryAccess) (s : PagingSystem) : Prop :=
  (∃ a, (s.access c).1 = .ok a) ∧
    ∃ pfn pte, cachedFrame (accessedPage c s) s = some pfn ∧ accessedEntry c s = some pte ∧
      pfn * (s.tables c.pid).pageSize ≠ pte.pfn * (s.tables c.pid).pageSize

section Specification

variable (S : RemapSetup)

/-- Every successful access returns the address by the page table as it is after the call. -/
def Coherent (events : List PagingEvent) : Prop :=
  ∀ done c a, done ++ [.access c] <+: events → ((S.after done).access c).1 = .ok a →
    tableAddress c (S.after (done ++ [.access c])) = some a

def NoStaleHit (events : List PagingEvent) : Prop :=
  ∀ done c, done ++ [.access c] <+: events → ¬ StaleHit c (S.after done)

/-- A page that is in the TLB is only mapped to the frame it has there. -/
def RemapsUncached (events : List PagingEvent) : Prop :=
  ∀ done pid vpn pfn writable, done ++ [.mapPage pid vpn pfn writable] <+: events →
    ∀ old, cachedFrame (pid, vpn) (S.after done) = some old → old = pfn

end Specification

/-! ## What the TLB holds -/

/-- The TLB entries are related by `R` to the page-table entries of their pages. -/
structure TLBRelates (R : Option PageTableEntry → UInt64 → Prop) (s : PagingSystem) : Prop where
  pid_eq : ∀ pid, (s.tables pid).pid = pid
  each : TLBEach (fun p pfn => R (s.tables p.1).entries[p.2.toNat]? pfn) s.mm.tlb

/-- The page has an entry. -/
def Known (e : Option PageTableEntry) (_ : UInt64) : Prop := ∃ pte, e = some pte

/-- The page has an entry with the same frame. -/
def Current (e : Option PageTableEntry) (pfn : UInt64) : Prop := ∃ pte, e = some pte ∧ pte.pfn = pfn

/-- What an access does to the page tables and the TLB, and the address it returns. -/
inductive AccessEffect (c : MemoryAccess) (s : PagingSystem) : AccessResult → PagingSystem → Prop where
  | fails {r : AccessResult} {s' : PagingSystem} (not_ok : ∀ a, r ≠ .ok a)
      (tables_eq : s'.tables = s.tables)
      (tlb_eq : s'.mm.tlb = s.mm.tlb ∨
        s'.mm.tlb = (s.mm.tlb.lookup c.pid (accessedPage c s).2).2) :
      AccessEffect c s r s'
  | hits {r : AccessResult} {s' : PagingSystem} (pfn : UInt64)
      (cached : cachedFrame (accessedPage c s) s = some pfn) (tables_eq : s'.tables = s.tables)
      (tlb_eq : s'.mm.tlb = (s.mm.tlb.lookup c.pid (accessedPage c s).2).2)
      (address : ∀ a, r = .ok a →
        a = pfn * (s.tables c.pid).pageSize + c.vAddr % (s.tables c.pid).pageSize) :
      AccessEffect c s r s'
  | walks {r : AccessResult} {s' : PagingSystem} (pte pte' : PageTableEntry) (writable : Bool)
      (missed : cachedFrame (accessedPage c s) s = none)
      (entry_eq : accessedEntry c s = some pte)
      (tables_eq : s'.tables = Function.update s.tables c.pid
        { s.tables c.pid with
          entries := (s.tables c.pid).entries.set (accessedPage c s).2.toNat pte' })
      (tlb_eq : s'.mm.tlb = (s.mm.tlb.lookup c.pid (accessedPage c s).2).2.insert c.pid
        (accessedPage c s).2 pte'.pfn writable)
      (address : ∀ a, r = .ok a →
        a = pte'.pfn * (s.tables c.pid).pageSize + c.vAddr % (s.tables c.pid).pageSize) :
      AccessEffect c s r s'

section Steps

variable {R : Option PageTableEntry → UInt64 → Prop} {s s' : PagingSystem} {c : MemoryAccess}
  {r : AccessResult} {a : UInt64}

theorem access_effect (hmm : ManagerOk s.mm) (hpid : ∀ pid, (s.tables pid).pid = pid)
    (c : MemoryAccess) : AccessEffect c s (s.access c).1 (s.access c).2 := by
  have hframe : tlbFrame c s = cachedFrame (accessedPage c s) s := by
    unfold tlbFrame
    rw [hpid]
    rfl
  have hlookup : (lookedUp c s).tlb = (s.mm.tlb.lookup c.pid (accessedPage c s).2).2 := by
    unfold lookedUp
    rw [hpid]
  have hinsert : ∀ pfn writable, cachedIn c s pfn writable =
      (s.mm.tlb.lookup c.pid (accessedPage c s).2).2.insert c.pid (accessedPage c s).2 pfn
        writable := by
    intro pfn writable
    unfold cachedIn
    rw [hpid, hlookup]
  have hmove := access_moves hmm c
  generalize (s.access c).1 = r, (s.access c).2 = s' at hmove ⊢
  have hok : ∀ {a b : UInt64}, AccessResult.ok a = .ok b → b = a := fun h =>
    (AccessResult.ok.inj h).symm
  cases hmove with
  | divides zero => exact .fails (by simp) rfl (.inl rfl)
  | rejects size_pos missed invalid beyond => exact .fails (by simp [notMapped]) rfl (.inr hlookup)
  | overruns size_pos missed noEntry passed => exact .fails (by simp) rfl (.inr hlookup)
  | hits size_pos cached lt => exact .hits _ (hframe ▸ cached) rfl hlookup fun a => hok
  | hitsOutside size_pos cached ge => exact .fails (by simp) rfl (.inr hlookup)
  | walks walk present lt =>
    exact .walks _ _ _ (hframe ▸ walk.missed) walk.entry_eq rfl (hinsert ..) fun a => hok
  | @walksOutside pte walk present ge =>
    refine .walks pte pte _ (hframe ▸ walk.missed) walk.entry_eq ?_ (hinsert ..) (by simp)
    rw [set_self walk.entry_eq, Function.update_eq_self]
  | fills walk absent lt free =>
    exact .walks _ _ _ (hframe ▸ walk.missed) walk.entry_eq rfl (hinsert ..) fun a => hok
  | evicts walk absent lt full found victim_eq =>
    exact .walks _ _ _ (hframe ▸ walk.missed) walk.entry_eq rfl (hinsert ..) fun a => hok

/-- **An access keeps the relation** if every entry is related to its own frame: the entry that
a walk writes was not cached before. -/
theorem TLBRelates.access (h : TLBRelates R s) (hR : ∀ pte : PageTableEntry, R (some pte) pte.pfn)
    (heffect : AccessEffect c s r s') : TLBRelates R s' := by
  obtain ⟨hpid, heach⟩ := h
  have hlookup := heach.lookup c.pid (accessedPage c s).2
  cases heffect with
  | fails _ htables htlb =>
    refine ⟨htables ▸ hpid, ?_⟩
    rw [htables]
    rcases htlb with htlb | htlb
    · exact htlb ▸ heach
    · exact htlb ▸ hlookup
  | hits _ _ htables htlb _ =>
    refine ⟨htables ▸ hpid, ?_⟩
    rw [htables, htlb]
    exact hlookup
  | walks pte pte' writable hmiss hentry htables htlb _ =>
    have hpid' : ∀ q, (s'.tables q).pid = (s.tables q).pid := by
      rw [htables]
      exact field_update PageTable.pid rfl
    refine ⟨fun q => (hpid' q).trans (hpid q), ?_⟩
    rw [htables, htlb]
    have hother : TLBEach (fun p _ => p ≠ (c.pid, (accessedPage c s).2))
        (s.mm.tlb.lookup c.pid (accessedPage c s).2).2 :=
      TLBEach.lookup (tlbEach_ne_of_miss hmiss) _ _
    refine TLBEach.insert (fun e he hv => ?_) ?_ writable
    · rw [entry_of_ne (hother e he hv)]
      exact hlookup e he hv
    · rw [entry_self hentry]
      exact hR pte'

/-- `MapPage` writes one entry, or nothing. -/
theorem mapPage_cases (s : PagingSystem) (pid : ℤ) (vpn pfn : UInt64) (writable : Bool) :
    (s.mapPage pid vpn pfn writable).tables = s.tables ∨
      ∃ pte pte' : PageTableEntry, (s.tables pid).entries[vpn.toNat]? = some pte ∧ pte'.pfn = pfn ∧
        (s.mapPage pid vpn pfn writable).tables = Function.update s.tables pid
          { s.tables pid with entries := (s.tables pid).entries.set vpn.toNat pte' } := by
  have hself : Function.update s.tables pid (s.tables pid) = s.tables :=
    Function.update_eq_self ..
  unfold PagingSystem.mapPage PageTable.mapPage
  dsimp only
  split
  · split
    · rename_i hlt
      exact .inr ⟨_, _, List.getElem?_eq_getElem hlt, rfl, rfl⟩
    · exact .inl hself
  · exact .inl hself

/-- `MapPage` keeps the relation if the new entry is related to what is cached for its page. -/
theorem TLBRelates.mapPage (h : TLBRelates R s) {pid : ℤ} {vpn pfn : UInt64} (writable : Bool)
    (hnew : ∀ (pte : PageTableEntry) (old f : UInt64), pte.pfn = pfn →
      cachedFrame (pid, vpn) s = some old → R (s.tables pid).entries[vpn.toNat]? old →
      R (s.tables pid).entries[vpn.toNat]? f → R (some pte) f) :
    TLBRelates R (s.mapPage pid vpn pfn writable) := by
  obtain ⟨hpid, heach⟩ := h
  rcases mapPage_cases s pid vpn pfn writable with htables | ⟨pte, pte', hget, hpfn, htables⟩
  · refine ⟨htables ▸ hpid, ?_⟩
    rw [htables]
    exact heach
  · have hpid' : ∀ q, ((s.mapPage pid vpn pfn writable).tables q).pid = (s.tables q).pid := by
      rw [htables]
      exact field_update PageTable.pid rfl
    refine ⟨fun q => (hpid' q).trans (hpid q), ?_⟩
    rw [htables]
    intro e he hv
    by_cases hkey : (e.asid, e.vpn) = (pid, vpn)
    · obtain ⟨hasid, hvpn⟩ := Prod.mk.inj hkey
      have hcached : cachedFrame (pid, vpn) s ≠ none := fun hmiss =>
        tlbEach_ne_of_miss hmiss e he hv hkey
      obtain ⟨old, hold⟩ := Option.ne_none_iff_exists'.mp hcached
      have hentry := heach e he hv
      dsimp only at hentry ⊢
      rw [hasid, hvpn] at hentry ⊢
      rw [entry_self hget]
      exact hnew pte' old e.pfn hpfn hold (heach.of_lookup hold) hentry
    · rw [entry_of_ne hkey]
      exact heach e he hv

/-- **An access is translated through the page table** unless it hits a stale entry. -/
theorem tableAddress_of_effect (h : TLBRelates Known s) (heffect : AccessEffect c s (.ok a) s')
    (hok : (s.access c).1 = .ok a) : tableAddress c s' = some a ↔ ¬ StaleHit c s := by
  cases heffect with
  | fails hno _ _ => exact absurd rfl (hno a)
  | hits pfn hcached htables _ haddress =>
    obtain ⟨pte, hentry⟩ := h.each.of_lookup hcached
    have htable : tableAddress c s' = some (pte.pfn * (s.tables c.pid).pageSize +
        c.vAddr % (s.tables c.pid).pageSize) := by
      unfold tableAddress accessedEntry accessedPage
      rw [htables]
      exact congrArg (Option.map _) hentry
    rw [htable, haddress a rfl, Option.some.injEq, UInt64.add_left_inj]
    constructor
    · rintro heq ⟨-, pfn', pte', hcached', hentry', hne⟩
      obtain rfl : pfn = pfn' := Option.some.inj (hcached.symm.trans hcached')
      obtain rfl : pte = pte' := Option.some.inj (hentry.symm.trans hentry')
      exact hne heq.symm
    · intro hfresh
      by_contra hne
      exact hfresh ⟨⟨a, hok⟩, pfn, pte, hcached, hentry, fun heq => hne heq.symm⟩
  | walks pte pte' _ hmiss hentry htables _ haddress =>
    have htable : tableAddress c s' = some a := by
      have hself := entry_self hentry pte'
      unfold tableAddress accessedEntry accessedPage
      rw [htables, haddress a rfl]
      simp only [Function.update_self] at hself ⊢
      exact congrArg (Option.map _) hself
    have hfresh : ¬ StaleHit c s := by
      rintro ⟨-, pfn, _, hcached, -⟩
      exact absurd (hmiss.symm.trans hcached) (by simp)
    exact iff_of_true htable hfresh

end Steps

/-! ## Runs -/

section Runs

variable {S : RemapSetup}

theorem after_concat (done : List PagingEvent) (e : PagingEvent) :
    S.after (done ++ [e]) = (S.after done).handle e := by
  unfold RemapSetup.after
  rw [List.foldl_append]
  rfl

theorem managerOk_after (done : List PagingEvent) : ManagerOk (S.after done).mm := by
  induction done using List.reverseRecOn with
  | nil => exact managerOk_new ..
  | append_singleton done e ih =>
    rw [after_concat]
    cases e with
    | mapPage pid vpn pfn writable => exact ih
    | access c => exact ih.move (access_moves ih c)

/-- The TLB of a new memory manager is empty. -/
theorem tlbRelates_init (R : Option PageTableEntry → UInt64 → Prop) : TLBRelates R S.init := by
  refine ⟨S.pid_eq, fun e he hv => ?_⟩
  rw [List.eq_of_mem_replicate he] at hv
  cases hv

/-- The pages in the TLB have page-table entries. -/
theorem known_after (done : List PagingEvent) : TLBRelates Known (S.after done) := by
  induction done using List.reverseRecOn with
  | nil => exact tlbRelates_init _
  | append_singleton done e ih =>
    rw [after_concat]
    cases e with
    | mapPage pid vpn pfn writable =>
      exact ih.mapPage writable fun pte _ _ _ _ _ _ => ⟨pte, rfl⟩
    | access c =>
      exact ih.access (fun pte => ⟨pte, rfl⟩)
        (access_effect (managerOk_after done) ih.pid_eq c)

/-- The TLB is up to date if no cached page has been mapped to another frame. -/
theorem current_after {events done : List PagingEvent} (h : RemapsUncached S events)
    (hpre : done <+: events) : TLBRelates Current (S.after done) := by
  induction done using List.reverseRecOn with
  | nil => exact tlbRelates_init _
  | append_singleton done e ih =>
    have hdone := ih ((List.prefix_append _ _).trans hpre)
    rw [after_concat]
    cases e with
    | mapPage pid vpn pfn writable =>
      refine hdone.mapPage writable ?_
      rintro pte old f hpfn hold ⟨pte₀, hget, rfl⟩ ⟨pte₁, hget', rfl⟩
      obtain rfl : pte₀ = pte₁ := Option.some.inj (hget.symm.trans hget')
      exact ⟨pte, rfl, hpfn.trans (h done pid vpn pfn writable hpre _ hold).symm⟩
    | access c =>
      exact hdone.access (fun pte => ⟨pte, rfl, rfl⟩)
        (access_effect (managerOk_after done) hdone.pid_eq c)

theorem not_staleHit_of_current {s : PagingSystem} (h : TLBRelates Current s) (c : MemoryAccess) :
    ¬ StaleHit c s := by
  rintro ⟨-, pfn, pte, hcached, hentry, hne⟩
  obtain ⟨pte', hentry', rfl⟩ := h.each.of_lookup hcached
  obtain rfl : pte = pte' := Option.some.inj (hentry.symm.trans hentry')
  exact hne rfl

end Runs

/-- **Translations are coherent exactly when no access hits a stale TLB entry**, and this is so
when `MapPage` is never called for another frame on a page that is in the TLB.
SOURCE: pkg/memory/page_replacement.go:65-124 -/
theorem translation_coherent (S : RemapSetup) (events : List PagingEvent) :
    (Coherent S events ↔ NoStaleHit S events) ∧ (RemapsUncached S events → Coherent S events) := by
  have hstep : ∀ done c a, ((S.after done).access c).1 = .ok a →
      (tableAddress c (S.after (done ++ [.access c])) = some a ↔ ¬ StaleHit c (S.after done)) := by
    intro done c a hok
    have hknown := known_after (S := S) done
    have heffect := access_effect (managerOk_after done) hknown.pid_eq c
    rw [after_concat]
    exact tableAddress_of_effect hknown (hok ▸ heffect) hok
  have hiff : Coherent S events ↔ NoStaleHit S events := by
    constructor
    · rintro h done c hpre ⟨⟨a, hok⟩, hstale⟩
      exact (hstep done c a hok).mp (h done c a hpre hok) ⟨⟨a, hok⟩, hstale⟩
    · intro h done c a hpre hok
      exact (hstep done c a hok).mpr (h done c hpre)
  refine ⟨hiff, fun h => hiff.mpr fun done c hpre => ?_⟩
  exact not_staleHit_of_current (current_after h ((List.prefix_append _ _).trans hpre)) c

/-- Two frames, and one table of one page. -/
def twoFrames : RemapSetup where
  numFrames := 2
  policy := .fifo
  tlbCapacity := 4
  tables := fun pid => newPageTable pid 1 4096
  pid_eq := fun _ => rfl

/-- A page that is mapped again before it is accessed. -/
theorem translation_coherent_remapped :
    RemapsUncached twoFrames
        [.mapPage 1 0 0 true, .mapPage 1 0 1 true, .access ⟨1, 0, false⟩] ∧
      Coherent twoFrames [.mapPage 1 0 0 true, .mapPage 1 0 1 true, .access ⟨1, 0, false⟩] := by
  have huncached : RemapsUncached twoFrames
      [.mapPage 1 0 0 true, .mapPage 1 0 1 true, .access ⟨1, 0, false⟩] := by
    rintro done pid vpn pfn writable ⟨rest, hrest⟩ old hold
    -- the TLB is empty until the access
    have hempty : done = [] ∨ done = [.mapPage 1 0 0 true] := by
      rcases done with _ | ⟨e₁, _ | ⟨e₂, _ | ⟨e₃, done⟩⟩⟩ <;> simp_all
    have hslots : ∀ e ∈ (twoFrames.after done).mm.tlb.entries, e.valid = false := by
      rcases hempty with rfl | rfl <;> decide
    have hfalse : TLBEach (fun _ _ => False) (twoFrames.after done).mm.tlb := by
      intro e he hv
      rw [hslots e he] at hv
      cases hv
    exact (hfalse.of_lookup hold).elim
  exact ⟨huncached, (translation_coherent twoFrames _).2 huncached⟩

/-- Page `0` is mapped to frame `0`, accessed, and mapped to frame `1`: the next access still
returns frame `0`. -/
theorem remapped_page_twoFrames :
    ¬ Coherent twoFrames
      [.mapPage 1 0 0 true, .access ⟨1, 0, false⟩, .mapPage 1 0 1 true, .access ⟨1, 0, false⟩] := by
  intro h
  have hok : ((twoFrames.after [.mapPage 1 0 0 true, .access ⟨1, 0, false⟩,
      .mapPage 1 0 1 true]).access ⟨1, 0, false⟩).1 = .ok 0 := by decide
  have htable : tableAddress ⟨1, 0, false⟩ (twoFrames.after [.mapPage 1 0 0 true,
      .access ⟨1, 0, false⟩, .mapPage 1 0 1 true, .access ⟨1, 0, false⟩]) = some 4096 := by decide
  have hzero := h [.mapPage 1 0 0 true, .access ⟨1, 0, false⟩, .mapPage 1 0 1 true] ⟨1, 0, false⟩ 0
    (List.prefix_refl _) hok
  exact absurd (htable.symm.trans hzero) (by decide)

end OsSimulator.Analysis
