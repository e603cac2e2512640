import OsSimulator.Analysis.PagingFrames
import OsSimulator.Interface.ReplacementOrder

/-!
# Paging against the textbook pager

The page faults and evictions of the memory manager are compared, call by call, with those of
the textbook pager of the same policy (`MatchesReference`).

They agree as long as no call touches a page that was evicted before.  Such a page is still
translated, so the memory manager does not fault where the textbook pager does; and up to the
first call of that kind the frame table is in the state of the textbook pager (`Follows`).
Hence a run matches the reference exactly when it never returns to an evicted page
(`matchesReference_iff_noStaleAccess`).
-/

set_option autoImplicit false

namespace OsSimulator.Analysis

open Model Interface Library

/-! ## The specification -/

section Specification

variable (S : PagingSetup) (R : Replacement)

/-- The state of the textbook pager after the given calls. -/
def referenceState (done : List MemoryAccess) : List (Page × Bool) :=
  DemandPager.run R S.init.mm.numFrames (done.map S.page)

/-- What the next call comes to in the textbook pager. -/
def referenceAccess (done : List MemoryAccess) (c : MemoryAccess) : PageAccess Page :=
  (DemandPager.access R S.init.mm.numFrames (S.page c) (referenceState S R done)).1

/-- The call takes page `p` out of its frame. -/
def Evicts (done : List MemoryAccess) (c : MemoryAccess) (p : Page) : Prop :=
  (∃ f, RecordsPage (S.after done) f p) ∧ ¬ ∃ f, RecordsPage (S.after (done ++ [c])) f p

/-- The calls fault, and evict, as in the textbook pager. -/
structure MatchesReference (calls : List MemoryAccess) : Prop where
  faults : ∀ done c, done ++ [c] <+: calls →
    (Faults S done c ↔ referenceAccess S R done c ≠ .hit)
  evicts : ∀ done c p, done ++ [c] <+: calls →
    (Evicts S done c p ↔ referenceAccess S R done c = .fault (some p))

/-- The call is on a page with a valid entry. -/
def OnValidPage (c : MemoryAccess) : Prop :=
  (S.tables c.pid).pageSize ≠ 0 ∧
    ∃ e, (S.tables c.pid).entries[(S.page c).2.toNat]? = some e ∧ e.valid = true

end Specification

/-! ## One call -/

section Call

variable {R : Replacement} {s : PagingSystem} {q : List (Page × Bool)} {c : MemoryAccess}

/-- The frame table of `s` is in the state `q` of the textbook pager. -/
structure InState (R : Replacement) (s : PagingSystem) (q : List (Page × Bool)) : Prop where
  policy_eq : s.mm.policy = modelPolicy R
  follows : Follows R s.mm.frames s.mm.clockHand s.mm.currentTick q

theorem InState.mem_pages (h : InState R s q) {p : Page} :
    p ∈ DemandPager.pages q ↔ (pagingView s).Resident p := by
  rw [h.follows.mem_pages]
  constructor
  · rintro ⟨f, hf, hp⟩
    obtain ⟨i, hi, rfl⟩ := List.mem_iff_getElem.mp hf
    refine ⟨i, ?_⟩
    show framePages s.mm.frames i = some p
    rw [framePages, List.getElem?_eq_getElem hi]
    exact hp
  · rintro ⟨i, hi⟩
    obtain ⟨f, hget, hp⟩ := Option.bind_eq_some_iff.mp hi
    exact ⟨f, List.mem_of_getElem? hget, hp⟩

/-- A page that is resident is translated to its frame, and to no other. -/
theorem InState.touch (h : InState R s q) (hs : PagingOk s) {f : ℕ}
    (hframe : (pagingView s).frameOf (accessedPage c s) = some f)
    (hat : (pagingView s).pageAt f = some (accessedPage c s)) :
    (s.access c).2.mm.pageFaults = s.mm.pageFaults ∧
      InState R (s.access c).2 (DemandPager.use R (accessedPage c s) q) := by
  have hafter := access_translated hs hframe
  refine ⟨hafter.faults_eq, hafter.policy_eq.trans h.policy_eq, ?_⟩
  rw [hafter.frames_eq, hafter.hand_eq, hafter.tick_eq]
  refine h.follows.touch c.isWrite hat fun j hj => ?_
  exact (Option.some.inj (hframe.symm.trans (hs.agrees.translated hj))).symm

/-- A page that is not translated is loaded as in the textbook pager. -/
theorem InState.load (h : InState R s q) (hs : PagingOk s)
    (hsize : (s.tables c.pid).pageSize ≠ 0) {pte : PageTableEntry}
    (hget : (s.tables c.pid).entries[(accessedPage c s).2.toNat]? = some pte)
    (hvalid : pte.valid = true) (hnone : (pagingView s).frameOf (accessedPage c s) = none) :
    (s.access c).2.mm.pageFaults = s.mm.pageFaults + 1 ∧
      accessedPage c s ∉ DemandPager.pages q ∧
      InState R (s.access c).2
        (DemandPager.access R s.mm.numFrames (accessedPage c s) q).2 := by
  have hlen := hs.manager.length_eq
  have hp : accessedPage c s ∉ DemandPager.pages q := by
    rw [h.mem_pages]
    rintro ⟨f, hf⟩
    exact absurd (hnone.symm.trans (hs.agrees.translated hf)) (by simp)
  obtain ⟨i, hand, frames, hi, hafter, hcase⟩ := access_untranslated hs hsize hget hvalid hnone
  refine ⟨hafter.faults_eq, hp, hafter.policy_eq.trans h.policy_eq, ?_⟩
  rw [hafter.frames_eq, hafter.hand_eq, hafter.tick_eq]
  rcases hcase with ⟨hfind, rfl, rfl⟩ | ⟨hfull, hvictim⟩
  · obtain ⟨hlt, hfree, -⟩ := List.findIdx?_eq_some_iff_getElem.mp hfind
    have hroom := h.follows.length_lt (List.getElem_mem hlt) (by simpa using hfree)
    rw [DemandPager.access_of_room hp (hlen ▸ hroom)]
    exact h.follows.loadFree c.isWrite hfind hp
  · have hcount := h.follows.length_eq hfull
    rw [h.policy_eq, ← hlen] at hvictim
    obtain ⟨v, rest, hevict, hnext⟩ :=
      h.follows.loadVictim (hlen ▸ hs.manager.hand_lt) hfull c.isWrite hvictim hp
    rw [DemandPager.access_of_full hp (by omega) hevict]
    exact hnext

end Call

/-! ## Runs -/

section Runs

variable {S : PagingSetup} {R : Replacement}

theorem referenceState_append (done : List MemoryAccess) (c : MemoryAccess) :
    referenceState S R (done ++ [c]) =
      (DemandPager.access R S.init.mm.numFrames (S.page c) (referenceState S R done)).2 := by
  unfold referenceState DemandPager.run
  rw [List.map_append, List.foldl_append]
  rfl

/-- The valid bits of the page tables never change. -/
theorem valid_after (done : List MemoryAccess) (pid : ℤ) :
    ((S.after done).tables pid).entries.map PageTableEntry.valid =
      (S.tables pid).entries.map PageTableEntry.valid := by
  induction done using List.reverseRecOn with
  | nil => rfl
  | append_singleton done c ih =>
    have hmove := access_moves (pagingOk_after (S := S) done).1.manager c
    rw [after_append, ← ih]
    exact hmove.valid_eq pid

theorem inState_init (hpolicy : S.policy = modelPolicy R) : InState R S.init [] := by
  refine ⟨hpolicy, ?_⟩
  have hfree : ∀ f ∈ S.init.mm.frames, f.isOccupied = false := by
    intro f hf
    obtain ⟨i, -, rfl⟩ := List.mem_map.mp hf
    rfl
  have hpage : ∀ f ∈ S.init.mm.frames, framePage f = none := by
    intro f hf
    rw [framePage, hfree f hf]
    rfl
  have hage : ∀ key, ByAge key S.init.mm.frames S.init.mm.currentTick [] := by
    intro key
    refine ⟨[], ByStamp.of_empty _ ?_, rfl⟩
    intro x hx
    obtain ⟨f, hf, rfl⟩ := List.mem_map.mp hx
    rw [stampedFrame, hpage f hf]
    rfl
  cases R with
  | fifo => exact hage _
  | lru => exact hage _
  | clock =>
    refine ⟨?_, ?_, fun hne => absurd rfl hne⟩
    · symm
      rw [List.filterMap_eq_nil_iff]
      intro f hf
      rw [frameBit, hpage f (List.mem_rotate.mp hf)]
      rfl
    · rw [List.pairwise_map]
      refine List.pairwise_of_forall_mem_list fun a _ b hb hocc => ?_
      rw [hfree b hb] at hocc
      cases hocc

theorem numFrames_pos (S : PagingSetup) : 0 < S.init.mm.numFrames := (managerOk_new _ _ _).pos

theorem nodup_referenceState (done : List MemoryAccess) :
    (DemandPager.pages (referenceState S R done)).Nodup := by
  induction done using List.reverseRecOn with
  | nil => exact List.nodup_nil
  | append_singleton done c ih =>
    rw [referenceState_append]
    exact DemandPager.nodup_access ih (numFrames_pos S)

/-- The entry of the page is valid when the call is made. -/
theorem entry_after {c : MemoryAccess} (hc : OnValidPage S c) (done : List MemoryAccess) :
    ((S.after done).tables c.pid).pageSize ≠ 0 ∧
      ∃ e, ((S.after done).tables c.pid).entries[(accessedPage c (S.after done)).2.toNat]? = some e ∧
        e.valid = true := by
  obtain ⟨hsize, e, hget, hvalid⟩ := hc
  refine ⟨by rw [(pagingOk_after done).2.pageSize_eq]; exact hsize, ?_⟩
  rw [accessedPage_after]
  have hmap := congrArg (·[(S.page c).2.toNat]?) (valid_after (S := S) done c.pid)
  simp only [List.getElem?_map, hget, Option.map_some] at hmap
  obtain ⟨e', hget', hvalid'⟩ := Option.map_eq_some_iff.mp hmap
  exact ⟨e', hget', hvalid'.trans hvalid⟩

variable {done : List MemoryAccess} {c : MemoryAccess}

/-- **A call to a page that was not evicted** faults as in the textbook pager and leads to
the same state. -/
theorem faults_iff_of_fresh (hstate : InState R (S.after done) (referenceState S R done))
    (hc : OnValidPage S c) (hfresh : ¬ EvictedBefore S done (S.page c)) :
    (Faults S done c ↔ referenceAccess S R done c ≠ .hit) ∧
      InState R (S.after (done ++ [c])) (referenceState S R (done ++ [c])) := by
  obtain ⟨hok, hshape⟩ := pagingOk_after (S := S) done
  have hpage := accessedPage_after (S := S) done c
  rw [← stale_iff_evictedBefore] at hfresh
  rw [after_append, referenceState_append]
  unfold Faults referenceAccess
  rw [Ne, DemandPager.access_eq_hit_iff]
  cases hframe : (pagingView (S.after done)).frameOf (S.page c) with
  | some f =>
    have hat : (pagingView (S.after done)).pageAt f = some (S.page c) := by
      by_contra hne
      exact hfresh ⟨f, hframe, hne⟩
    have hmem := hstate.mem_pages.mpr ⟨f, hat⟩
    rw [← hpage] at hframe hat
    obtain ⟨hfaults, hnext⟩ := hstate.touch hok hframe hat
    rw [hpage] at hnext
    rw [DemandPager.access_of_mem hmem, hfaults]
    exact ⟨by simp [hmem], hnext⟩
  | none =>
    obtain ⟨hsize, pte, hget, hvalid⟩ := entry_after hc done
    rw [← hpage] at hframe
    obtain ⟨hfaults, hp, hnext⟩ := hstate.load hok hsize hget hvalid hframe
    rw [hpage] at hp hnext
    rw [hshape.numFrames_eq] at hnext
    exact ⟨by simp [hp, hfaults], hnext⟩

/-- **A call to an evicted page** does not fault, but it does in the textbook pager. -/
theorem not_faults_of_evicted (hstate : InState R (S.after done) (referenceState S R done))
    (hevicted : EvictedBefore S done (S.page c)) :
    ¬ Faults S done c ∧ referenceAccess S R done c ≠ .hit := by
  obtain ⟨hok, -⟩ := pagingOk_after (S := S) done
  rw [← stale_iff_evictedBefore] at hevicted
  obtain ⟨hframe, hres⟩ := hok.agrees.stale_iff.mp hevicted
  obtain ⟨f, hf⟩ := Option.ne_none_iff_exists'.mp hframe
  rw [← accessedPage_after done] at hf
  have hfaults := (access_translated hok hf).faults_eq
  constructor
  · unfold Faults
    rw [hfaults]
    omega
  · unfold referenceAccess
    rw [Ne, DemandPager.access_eq_hit_iff, hstate.mem_pages]
    exact hres

/-- Evictions agree when the states do. -/
theorem evicts_iff (hstate : InState R (S.after done) (referenceState S R done))
    (hnext : InState R (S.after (done ++ [c])) (referenceState S R (done ++ [c]))) (p : Page) :
    Evicts S done c p ↔ referenceAccess S R done c = .fault (some p) := by
  unfold Evicts
  rw [← resident_iff (pagingOk_after done).1.manager,
    ← resident_iff (pagingOk_after (done ++ [c])).1.manager, ← hstate.mem_pages, ← hnext.mem_pages,
    referenceState_append]
  exact (DemandPager.access_evicts_iff (nodup_referenceState done) (numFrames_pos S)).symm

end Runs

/-- **Paging matches the textbook pager exactly in the runs that never return to an evicted
page**, for each of the three policies and any number of frames and TLB slots.
SOURCE: pkg/memory/page_replacement.go:65-204 -/
theorem matchesReference_iff_noStaleAccess (S : PagingSetup) (R : Replacement)
    (hpolicy : S.policy = modelPolicy R) (calls : List MemoryAccess)
    (hvalid : ∀ c ∈ calls, OnValidPage S c) :
    MatchesReference S R calls ↔ NoStaleAccess S calls := by
  have hmem : ∀ {done : List MemoryAccess} {c}, done ++ [c] <+: calls → OnValidPage S c :=
    fun hpre => hvalid _ (hpre.subset (by simp))
  constructor
  · intro hmatch
    -- up to each call the states agree, because the calls before it were not stale
    have hstates : ∀ done, done <+: calls → InState R (S.after done) (referenceState S R done) ∧
        ∀ c, done ++ [c] <+: calls → ¬ EvictedBefore S done (S.page c) := by
      intro done
      induction done using List.reverseRecOn with
      | nil =>
        intro _
        have hinit : InState R (S.after []) (referenceState S R []) := inState_init hpolicy
        refine ⟨hinit, fun c hpre hevicted => ?_⟩
        obtain ⟨hno, href⟩ := not_faults_of_evicted hinit hevicted
        exact hno ((hmatch.faults [] c hpre).mpr href)
      | append_singleton done c ih =>
        intro hpre
        obtain ⟨hstate, hfresh⟩ := ih ((List.prefix_append _ _).trans hpre)
        obtain ⟨-, hnext⟩ := faults_iff_of_fresh hstate (hmem hpre) (hfresh c hpre)
        refine ⟨hnext, fun c' hpre' hevicted => ?_⟩
        obtain ⟨hno, href⟩ := not_faults_of_evicted hnext hevicted
        exact hno ((hmatch.faults _ c' hpre').mpr href)
    exact fun done c hpre => (hstates done ((List.prefix_append _ _).trans hpre)).2 c hpre
  · intro hfresh
    have hstates : ∀ done, done <+: calls → InState R (S.after done) (referenceState S R done) := by
      intro done
      induction done using List.reverseRecOn with
      | nil => exact fun _ => inState_init hpolicy
      | append_singleton done c ih =>
        intro hpre
        have hstate := ih ((List.prefix_append _ _).trans hpre)
        exact (faults_iff_of_fresh hstate (hmem hpre) (hfresh done c hpre)).2
    constructor
    · intro done c hpre
      have hstate := hstates done ((List.prefix_append _ _).trans hpre)
      exact (faults_iff_of_fresh hstate (hmem hpre) (hfresh done c hpre)).1
    · intro done c p hpre
      exact evicts_iff (hstates done ((List.prefix_append _ _).trans hpre)) (hstates _ hpre) p

theorem onValidPage_oneFrame (c : MemoryAccess) (hc : c = ⟨1, 0, false⟩ ∨ c = ⟨1, 4096, false⟩) :
    OnValidPage oneFrame c := by
  rcases hc with rfl | rfl
  · exact ⟨by decide, _, rfl, rfl⟩
  · exact ⟨by decide, _, rfl, rfl⟩

/-- A run that does match. -/
theorem matchesReference_oneFrame :
    (∀ c ∈ evictingRun, OnValidPage oneFrame c) ∧ MatchesReference oneFrame .fifo evictingRun := by
  have hvalid : ∀ c ∈ evictingRun, OnValidPage oneFrame c := by
    intro c hc
    apply onValidPage_oneFrame
    simpa [evictingRun] using hc
  exact ⟨hvalid, (matchesReference_iff_noStaleAccess oneFrame .fifo rfl _ hvalid).mpr
    noStaleAccess_evictingRun⟩

/-- Page `0` was evicted by page `1`; accessed again, it faults in the textbook pager and not
here. -/
theorem missing_fault_oneFrame :
    (∀ c ∈ [(⟨1, 0, false⟩ : MemoryAccess), ⟨1, 4096, false⟩, ⟨1, 0, false⟩],
        OnValidPage oneFrame c) ∧
      ¬ Faults oneFrame [⟨1, 0, false⟩, ⟨1, 4096, false⟩] ⟨1, 0, false⟩ ∧
      referenceAccess oneFrame .fifo [⟨1, 0, false⟩, ⟨1, 4096, false⟩] ⟨1, 0, false⟩ =
        .fault (some (1, 1)) ∧
      ¬ MatchesReference oneFrame .fifo [⟨1, 0, false⟩, ⟨1, 4096, false⟩, ⟨1, 0, false⟩] := by
  have hno : ¬ Faults oneFrame [⟨1, 0, false⟩, ⟨1, 4096, false⟩] ⟨1, 0, false⟩ := by
    unfold Faults
    decide
  have href : referenceAccess oneFrame .fifo [⟨1, 0, false⟩, ⟨1, 4096, false⟩] ⟨1, 0, false⟩ =
      .fault (some (1, 1)) := by decide
  refine ⟨?_, hno, href, fun hmatch => ?_⟩
  · intro c hc
    apply onValidPage_oneFrame
    simp only [List.mem_cons, List.not_mem_nil, or_false] at hc
    rcases hc with hc | hc | hc
    · exact .inl hc
    · exact .inr hc
    · exact .inl hc
  · apply hno
    rw [hmatch.faults [⟨1, 0, false⟩, ⟨1, 4096, false⟩] ⟨1, 0, false⟩ (List.prefix_refl _), href]
    simp

end OsSimulator.Analysis
