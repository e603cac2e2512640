import OsSimulator.Interface.DemandPaging
import Mathlib.Data.List.Infix
import Mathlib.Data.List.Induction

/-!
# Whose frame an access is resolved to

An eviction overwrites the frame but leaves the page-table entry of the evicted page
present and its TLB entry valid.  The next access to that page is resolved to the frame
it has lost, and reads or writes the page that lives there now
(`access_after_eviction_oneFrame`).

That is the only way to get a wrong frame: as long as physical addresses fit in 64 bits,
an access is resolved to the frame of its own page if and only if the page has not been
evicted before (`records_iff_not_evicted`), so that a run is correct exactly when it
never returns to an evicted page (`pagingCorrect_iff_noStaleAccess`).
-/

set_option autoImplicit false

namespace OsSimulator.Analysis

open Model Interface Library

/-- A new memory manager and page tables, one a PID, whose valid entries are not present. -/
structure PagingSetup where
  numFrames : Int64
  policy : ReplacementPolicy
  tlbCapacity : Int64
  tables : ℤ → PageTable
  pid_eq : ∀ pid, (tables pid).pid = pid
  absent : ∀ pid, ∀ e ∈ (tables pid).entries, e.valid = true → e.present = false

namespace PagingSetup

variable (S : PagingSetup)

def init : PagingSystem := ⟨newMemoryManager S.numFrames S.policy S.tlbCapacity, S.tables⟩

/-- The state after the given calls. -/
def after (calls : List MemoryAccess) : PagingSystem := S.init.run calls

/-- The page that a call touches. -/
def page (c : MemoryAccess) : Page := (c.pid, c.vAddr / (S.tables c.pid).pageSize)

end PagingSetup

/-! ## The specification -/

section Specification

variable (S : PagingSetup)

/-- Frame `f` is occupied by page `p`. -/
def RecordsPage (s : PagingSystem) (f : UInt64) (p : Page) : Prop :=
  ∃ frame, s.mm.frames[f.toNat]? = some frame ∧ frame.isOccupied = true ∧ frame.pid = p.1 ∧
    frame.vpn = p.2

/-- The call made after the calls `done` is resolved to frame `f`. -/
def ResolvesTo (done : List MemoryAccess) (c : MemoryAccess) (f : UInt64) : Prop :=
  ∃ pAddr, ((S.after done).access c).1 = .ok pAddr ∧ f = pAddr / (S.tables c.pid).pageSize

/-- The page was in a frame at some point of the run and is in none now. -/
def EvictedBefore (done : List MemoryAccess) (p : Page) : Prop :=
  ∃ earlier, earlier <+: done ∧ (∃ f, RecordsPage (S.after earlier) f p) ∧
    ¬ ∃ f, RecordsPage (S.after done) f p

/-- The call counts a page fault. -/
def Faults (done : List MemoryAccess) (c : MemoryAccess) : Prop :=
  ((S.after done).access c).2.mm.pageFaults = (S.after done).mm.pageFaults + 1

/-- A successful access is resolved to the frame of its page, and two pages accessed in a
row share a frame only if the first was evicted and faults when it is accessed next. -/
structure PagingCorrect (calls : List MemoryAccess) : Prop where
  own_frame : ∀ done c f, done ++ [c] <+: calls → ResolvesTo S done c f →
    RecordsPage (S.after (done ++ [c])) f (S.page c)
  in_a_row : ∀ done c₁ c₂ f, done ++ [c₁, c₂] <+: calls → S.page c₁ ≠ S.page c₂ →
    ResolvesTo S done c₁ f → ResolvesTo S (done ++ [c₁]) c₂ f →
    EvictedBefore S (done ++ [c₁, c₂]) (S.page c₁) ∧
      ∀ rest c₃, done ++ [c₁, c₂] ++ rest ++ [c₃] <+: calls → S.page c₃ = S.page c₁ →
        (∀ c ∈ rest, S.page c ≠ S.page c₁) → Faults S (done ++ [c₁, c₂] ++ rest) c₃

/-- No call touches a page that was evicted before it. -/
def NoStaleAccess (calls : List MemoryAccess) : Prop :=
  ∀ done c, done ++ [c] <+: calls → ¬ EvictedBefore S done (S.page c)

/-- The physical addresses of all frames fit in 64 bits. -/
def AddressesFit (calls : List MemoryAccess) : Prop :=
  ∀ c ∈ calls, S.init.mm.numFrames * (S.tables c.pid).pageSize.toNat ≤ 2 ^ 64

end Specification

/-! ## Runs -/

section Runs

variable {S : PagingSetup}

theorem after_append (calls : List MemoryAccess) (c : MemoryAccess) :
    S.after (calls ++ [c]) = ((S.after calls).access c).2 := by
  unfold PagingSetup.after PagingSystem.run
  rw [List.foldl_append]
  rfl

theorem init_frameOf (p : Page) : (pagingView S.init).frameOf p = none := by
  show ((S.tables p.1).entries[p.2.toNat]?).bind entryFrame = none
  cases hget : (S.tables p.1).entries[p.2.toNat]? with
  | none => rfl
  | some e =>
    have habsent := S.absent p.1 e (List.mem_of_getElem? hget)
    show entryFrame e = none
    unfold entryFrame
    cases hv : e.valid with
    | false => rfl
    | true =>
      rw [habsent hv]
      rfl

theorem init_pageAt (f : ℕ) : (pagingView S.init).pageAt f = none := by
  show framePages S.init.mm.frames f = none
  unfold framePages
  cases hget : S.init.mm.frames[f]? with
  | none => rfl
  | some frame =>
    have hmem : frame ∈ S.init.mm.frames := List.mem_of_getElem? hget
    simp only [PagingSetup.init, newMemoryManager, List.mem_map] at hmem
    obtain ⟨i, -, rfl⟩ := hmem
    rfl

theorem pagingOk_init (S : PagingSetup) : PagingOk S.init := by
  obtain ⟨hmm, hpid, htlb⟩ :=
    consistent_new S.numFrames S.policy S.tlbCapacity S.pid_eq
  refine ⟨hmm, hpid, ⟨?_, ?_⟩, htlb, fun p hp => absurd (init_frameOf p) hp⟩
  · intro f p hp
    rw [init_pageAt] at hp
    cases hp
  · intro p f hp
    rw [init_frameOf] at hp
    cases hp

/-- The invariant holds in every state, and the shape of the system stays. -/
theorem pagingOk_after (calls : List MemoryAccess) :
    PagingOk (S.after calls) ∧ SameShape S.init (S.after calls) := by
  induction calls using List.reverseRecOn with
  | nil => exact ⟨pagingOk_init S, rfl, fun _ => rfl⟩
  | append_singleton calls c ih =>
    obtain ⟨hok, hshape⟩ := ih
    have hacc := access_spec hok c
    rw [after_append]
    exact ⟨hacc.ok, hacc.shape.numFrames_eq.trans hshape.numFrames_eq,
      fun pid => (hacc.shape.pageSize_eq pid).trans (hshape.pageSize_eq pid)⟩

theorem accessedPage_after (calls : List MemoryAccess) (c : MemoryAccess) :
    accessedPage c (S.after calls) = S.page c := by
  unfold accessedPage PagingSetup.page
  rw [(pagingOk_after calls).2.pageSize_eq]
  rfl

theorem recordsPage_iff {s : PagingSystem} {f : UInt64} {p : Page} :
    RecordsPage s f p ↔ (pagingView s).pageAt f.toNat = some p := by
  show _ ↔ framePages s.mm.frames f.toNat = some p
  unfold RecordsPage framePages
  cases s.mm.frames[f.toNat]? with
  | none => simp
  | some frame =>
    obtain ⟨pid, vpn⟩ := p
    show _ ↔ framePage frame = some (pid, vpn)
    unfold framePage
    cases hocc : frame.isOccupied <;> simp [hocc]

/-- Residency in the abstract pager is a record in the frame table. -/
theorem resident_iff {s : PagingSystem} (hs : ManagerOk s.mm) {p : Page} :
    (pagingView s).Resident p ↔ ∃ f, RecordsPage s f p := by
  constructor
  · rintro ⟨f, hf⟩
    have hlt : f < s.mm.numFrames := by
      rw [← hs.length_eq]
      by_contra hge
      have hnone : framePages s.mm.frames f = none := by
        unfold framePages
        rw [List.getElem?_eq_none (by omega)]
        rfl
      exact absurd (hnone.symm.trans hf) (by simp)
    refine ⟨UInt64.ofNat f, recordsPage_iff.mpr ?_⟩
    rw [toNat_ofNat_of_lt hs hlt]
    exact hf
  · rintro ⟨f, hf⟩
    exact ⟨f.toNat, recordsPage_iff.mp hf⟩

/-- The views along a run. -/
theorem trace_after (done : List MemoryAccess) :
    PagerView.Trace (fun k => pagingView (S.after (done.take k))) done.length := by
  intro k hk
  have hspec := (access_spec (pagingOk_after (S := S) (done.take k)).1 done[k]).spec
  rw [← after_append, ← List.take_succ_eq_append_getElem hk] at hspec
  exact hspec.exists_moves

/-- **Stale pages are evicted pages.** -/
theorem stale_iff_evictedBefore (done : List MemoryAccess) (p : Page) :
    (pagingView (S.after done)).Stale p ↔ EvictedBefore S done p := by
  have hstale := PagerView.stale_iff_lost (trace_after (S := S) done) (p := p)
    (fun p => init_frameOf p) (pagingOk_init S).agrees
  rw [List.take_length] at hstale
  rw [hstale, resident_iff (pagingOk_after done).1.manager]
  constructor
  · rintro ⟨j, -, hres, hnot⟩
    exact ⟨done.take j, List.take_prefix j done,
      (resident_iff (pagingOk_after _).1.manager).mp hres, hnot⟩
  · rintro ⟨earlier, hpre, hres, hnot⟩
    refine ⟨earlier.length, hpre.length_le, ?_, hnot⟩
    rw [← List.prefix_iff_eq_take.mp hpre]
    exact (resident_iff (pagingOk_after _).1.manager).mpr hres

end Runs

/-! ## One call -/

section Call

variable {S : PagingSetup}

/-- The frame number can be read off an address that does not wrap around. -/
theorem frame_of_address {f size vAddr : UInt64} {n : ℕ} (hf : f.toNat < n) (hsize : size ≠ 0)
    (hfit : n * size.toNat ≤ 2 ^ 64) : (f * size + vAddr % size) / size = f := by
  have hpos : 0 < size.toNat := by
    apply Nat.pos_of_ne_zero
    intro h
    exact hsize (UInt64.toNat_inj.mp h)
  have hoff : vAddr.toNat % size.toNat < size.toNat := Nat.mod_lt _ hpos
  have hle : (f.toNat + 1) * size.toNat ≤ n * size.toNat := Nat.mul_le_mul_right _ hf
  rw [Nat.add_mul, Nat.one_mul] at hle
  apply UInt64.toNat_inj.mp
  rw [UInt64.toNat_div, UInt64.toNat_add, UInt64.toNat_mul, UInt64.toNat_mod,
    Nat.mod_eq_of_lt (by omega), Nat.mod_eq_of_lt (by omega), Nat.mul_comm f.toNat,
    Nat.mul_add_div hpos, Nat.div_eq_of_lt hoff, Nat.add_zero]

variable {done : List MemoryAccess} {c : MemoryAccess} {f : UInt64}

theorem accessSpec_after (done : List MemoryAccess) (c : MemoryAccess) :
    AccessSpec c (S.after done) ((S.after done).access c).1 (S.after (done ++ [c])) := by
  rw [after_append]
  exact (access_spec (pagingOk_after done).1 c).spec

/-- A resolved call is a move of the pager to the resolved frame. -/
theorem ResolvesTo.moves (h : ResolvesTo S done c f)
    (hfit : S.init.mm.numFrames * (S.tables c.pid).pageSize.toNat ≤ 2 ^ 64) :
    (pagingView (S.after done)).Moves (pagingView (S.after (done ++ [c])))
      (some (S.page c, f.toNat)) := by
  obtain ⟨pAddr, hok, rfl⟩ := h
  obtain ⟨-, hshape⟩ := pagingOk_after (S := S) done
  have hsizeEq : ((S.after done).tables c.pid).pageSize = (S.tables c.pid).pageSize :=
    hshape.pageSize_eq c.pid
  have hspec := accessSpec_after (S := S) done c
  generalize ((S.after done).access c).1 = r at hspec hok
  cases hspec with
  | ok g lt size_pos moves =>
    rw [accessedPage_after] at moves
    rw [hshape.numFrames_eq] at lt
    rw [hsizeEq] at hok size_pos
    have haddr : pAddr / (S.tables c.pid).pageSize = g := by
      rw [← AccessResult.ok.inj hok]
      exact frame_of_address lt size_pos hfit
    rw [haddr]
    exact moves
  | fail not_ok same unmapped => exact absurd hok (not_ok pAddr)

/-- **One call**: it is resolved to the frame of its page if and only if the page has not
been evicted before. -/
theorem records_iff_not_evicted (h : ResolvesTo S done c f)
    (hfit : S.init.mm.numFrames * (S.tables c.pid).pageSize.toNat ≤ 2 ^ 64) :
    RecordsPage (S.after (done ++ [c])) f (S.page c) ↔ ¬ EvictedBefore S done (S.page c) := by
  rw [recordsPage_iff, (h.moves hfit).resolves_iff, stale_iff_evictedBefore]

/-- A call to an evicted page succeeds all the same. -/
theorem exists_resolvesTo_of_evicted (h : EvictedBefore S done (S.page c)) :
    ∃ f, ResolvesTo S done c f := by
  obtain ⟨f, hframe, -⟩ := (stale_iff_evictedBefore done _).mpr h
  have hspec := accessSpec_after (S := S) done c
  cases hr : ((S.after done).access c).1 with
  | ok pAddr => exact ⟨_, pAddr, hr, rfl⟩
  | error message =>
    rw [hr] at hspec
    cases hspec with
    | fail _ _ unmapped =>
      rw [accessedPage_after, hframe] at unmapped
      cases unmapped
  | panic =>
    rw [hr] at hspec
    cases hspec with
    | fail _ _ unmapped =>
      rw [accessedPage_after, hframe] at unmapped
      cases unmapped

/-- Once evicted, a page stays so. -/
theorem EvictedBefore.append (h : EvictedBefore S done (S.page c)) (rest : List MemoryAccess) :
    EvictedBefore S (done ++ rest) (S.page c) := by
  rw [← stale_iff_evictedBefore] at h ⊢
  induction rest using List.reverseRecOn with
  | nil => rwa [List.append_nil]
  | append_singleton rest c' ih =>
    rw [← List.append_assoc]
    obtain ⟨r, hm⟩ := (accessSpec_after (S := S) (done ++ rest) c').exists_moves
    exact ih.move hm

end Call

/-! ## Whole runs -/

/-- **Paging is correct exactly in the runs that never return to an evicted page**, for
every policy, number of frames, TLB capacity and set of page tables.
SOURCE: pkg/memory/page_replacement.go:65-204 -/
theorem pagingCorrect_iff_noStaleAccess (S : PagingSetup) (calls : List MemoryAccess)
    (hfit : AddressesFit S calls) : PagingCorrect S calls ↔ NoStaleAccess S calls := by
  have hfits : ∀ {done : List MemoryAccess} {c}, done ++ [c] <+: calls →
      S.init.mm.numFrames * (S.tables c.pid).pageSize.toNat ≤ 2 ^ 64 :=
    fun hpre => hfit _ (hpre.subset (by simp))
  constructor
  · intro hcorrect done c hpre hevicted
    obtain ⟨f, hres⟩ := exists_resolvesTo_of_evicted hevicted
    exact (records_iff_not_evicted hres (hfits hpre)).mp (hcorrect.own_frame done c f hpre hres)
      hevicted
  · intro hfresh
    have hown : ∀ done c f, done ++ [c] <+: calls → ResolvesTo S done c f →
        RecordsPage (S.after (done ++ [c])) f (S.page c) := fun done c f hpre hres =>
      (records_iff_not_evicted hres (hfits hpre)).mpr (hfresh done c hpre)
    refine ⟨hown, ?_⟩
    intro done c₁ c₂ f hpre hne hres₁ hres₂
    have hsplit : done ++ [c₁, c₂] = (done ++ [c₁]) ++ [c₂] := by simp
    have hpre₂ : (done ++ [c₁]) ++ [c₂] <+: calls := hsplit ▸ hpre
    have hpre₁ : done ++ [c₁] <+: calls := (List.prefix_append _ [c₂]).trans hpre₂
    have hrec₁ := hown done c₁ f hpre₁ hres₁
    have hrec₂ := hown (done ++ [c₁]) c₂ f hpre₂ hres₂
    -- the second page took the frame of the first
    have hevicted : EvictedBefore S (done ++ [c₁, c₂]) (S.page c₁) := by
      rw [hsplit]
      refine ⟨done ++ [c₁], List.prefix_append _ _, ⟨f, hrec₁⟩, ?_⟩
      rintro ⟨g, hg⟩
      have hok := (pagingOk_after (S := S) (done ++ [c₁])).1
      have htrans := hok.agrees.translated (recordsPage_iff.mp hrec₁)
      have htrans' := (hres₂.moves (hfits hpre₂)).frameOf_mono htrans
      have hat := ((pagingOk_after (S := S) ((done ++ [c₁]) ++ [c₂])).1.agrees.resident_iff
        htrans').mp ⟨g.toNat, recordsPage_iff.mp hg⟩
      exact hne (Option.some.inj (hat.symm.trans (recordsPage_iff.mp hrec₂)))
    refine ⟨hevicted, ?_⟩
    intro rest c₃ hpre₃ hpage _
    have := hfresh _ c₃ hpre₃
    rw [hpage] at this
    exact absurd (hevicted.append rest) this

/-- One frame, and a process with two pages of 4 KB that are not present. -/
def oneFrame : PagingSetup where
  numFrames := 1
  policy := .fifo
  tlbCapacity := 1
  tables := fun pid => ⟨pid, 4096, if pid = 1 then
    [{ valid := true, readWrite := true }, { valid := true, readWrite := true }] else []⟩
  pid_eq := fun _ => rfl
  absent := by
    intro pid e he _
    dsimp only at he
    split at he
    · simp only [List.mem_cons, List.not_mem_nil, or_false, or_self] at he
      rw [he]
    · cases he

/-- Each page is accessed twice in a row, the second time through the TLB, and page `1` takes the
frame of page `0`. -/
def evictingRun : List MemoryAccess :=
  [⟨1, 0, false⟩, ⟨1, 0, false⟩, ⟨1, 4096, false⟩, ⟨1, 4096, false⟩]

theorem noStaleAccess_evictingRun : NoStaleAccess oneFrame evictingRun := by
  rintro done c ⟨rest, hrest⟩ ⟨earlier, hearlier, hbefore, hnow⟩
  rcases done with _ | ⟨a, _ | ⟨b, _ | ⟨d, _ | ⟨e, done⟩⟩⟩⟩
  · exact hnow (List.prefix_nil.mp hearlier ▸ hbefore)
  · cases hrest
    exact hnow ⟨0, _, rfl, by decide, by decide, by decide⟩
  · -- page `1` was not in a frame before its first access
    cases hrest
    have hnever : ∀ earlier ∈ [(⟨1, 0, false⟩ : MemoryAccess), ⟨1, 0, false⟩].inits,
        ∀ frame ∈ (oneFrame.after earlier).mm.frames,
          ¬ (frame.isOccupied = true ∧ frame.pid = 1 ∧ frame.vpn = 1) := by decide
    obtain ⟨f, frame, hget, hframe⟩ := hbefore
    exact hnever earlier ((List.mem_inits ..).mpr hearlier) frame (List.mem_of_getElem? hget) hframe
  · cases hrest
    exact hnow ⟨0, _, rfl, by decide, by decide, by decide⟩
  · simp [evictingRun] at hrest

theorem pagingCorrect_oneFrame :
    AddressesFit oneFrame evictingRun ∧ PagingCorrect oneFrame evictingRun := by
  have hfit : AddressesFit oneFrame evictingRun := by
    intro c hc
    show 1 * 4096 ≤ 2 ^ 64
    decide
  exact ⟨hfit, (pagingCorrect_iff_noStaleAccess _ _ hfit).mpr noStaleAccess_evictingRun⟩

/-- Page `1` takes the frame of page `0`; the next access to page `0` is still resolved to
that frame, without a page fault. -/
theorem access_after_eviction_oneFrame :
    ResolvesTo oneFrame [⟨1, 0, false⟩, ⟨1, 4096, false⟩] ⟨1, 0, false⟩ 0 ∧
      RecordsPage (oneFrame.after [⟨1, 0, false⟩, ⟨1, 4096, false⟩, ⟨1, 0, false⟩]) 0 (1, 1) ∧
      ¬ Faults oneFrame [⟨1, 0, false⟩, ⟨1, 4096, false⟩] ⟨1, 0, false⟩ ∧
      ¬ PagingCorrect oneFrame [⟨1, 0, false⟩, ⟨1, 4096, false⟩, ⟨1, 0, false⟩] := by
  have hres : ResolvesTo oneFrame [⟨1, 0, false⟩, ⟨1, 4096, false⟩] ⟨1, 0, false⟩ 0 :=
    ⟨0, by decide, by decide⟩
  have hrec : RecordsPage (oneFrame.after [⟨1, 0, false⟩, ⟨1, 4096, false⟩, ⟨1, 0, false⟩]) 0
      (1, 1) := ⟨_, rfl, by decide, by decide, by decide⟩
  refine ⟨hres, hrec, by unfold Faults; decide, fun hcorrect => ?_⟩
  have hown := hcorrect.own_frame [⟨1, 0, false⟩, ⟨1, 4096, false⟩] ⟨1, 0, false⟩ 0
    (List.prefix_refl _) hres
  have heq := (recordsPage_iff.mp hown).symm.trans (recordsPage_iff.mp hrec)
  exact absurd heq (by decide)

end OsSimulator.Analysis
