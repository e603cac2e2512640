import OsSimulator.Analysis.PagingReference

/-!
# FIFO evicts in the order of loading

The FIFO policy keeps no queue: the victim is found by a scan for the least `LoadedTick`.  Accesses
do not change these ticks, each load has a tick of its own, and a page is loaded only if it is in no
frame, so that the ticks are a queue all the same (`ByAge`).

In every run, evicted pages and pages in the frames together are the pages that were loaded
(`fifo_step`); the evictions are a prefix of the loads (`evictions_prefix_loads`).
-/

set_option autoImplicit false

namespace OsSimulator.Analysis

open Model Interface Library

/-! ## What is loaded and evicted -/

section Log

variable (c : MemoryAccess) (s s' : PagingSystem)

/-- The page that a call leading from `s` to `s'` loads: a page fault is counted. -/
def loadedIn : List Page :=
  if s'.mm.pageFaults = s.mm.pageFaults then [] else [accessedPage c s]

/-- The page that the call evicts: an eviction is counted, and the page was in the frame that the
accessed page is in now. -/
def evictedIn : List Page :=
  if s'.mm.pageEvictions = s.mm.pageEvictions then []
  else ((tableFrame s'.tables (accessedPage c s)).bind (framePages s.mm.frames)).toList

end Log

/-- The pages loaded in a sequence of calls. -/
def loads (s : PagingSystem) : List MemoryAccess → List Page
  | [] => []
  | c :: calls => loadedIn c s (s.access c).2 ++ loads (s.access c).2 calls

/-- The pages evicted in a sequence of calls. -/
def evictions (s : PagingSystem) : List MemoryAccess → List Page
  | [] => []
  | c :: calls => evictedIn c s (s.access c).2 ++ evictions (s.access c).2 calls

/-! ## One call -/

section Call

variable {c : MemoryAccess} {s s' : PagingSystem} {r : AccessResult} {q : List (Page × Bool)}

theorem loadedIn_of_same (h : s'.mm.pageFaults = s.mm.pageFaults) : loadedIn c s s' = [] :=
  if_pos h

theorem loadedIn_of_fault (h : s'.mm.pageFaults = s.mm.pageFaults + 1) :
    loadedIn c s s' = [accessedPage c s] :=
  if_neg (by omega)

theorem evictedIn_of_same (h : s'.mm.pageEvictions = s.mm.pageEvictions) : evictedIn c s s' = [] :=
  if_pos h

theorem evictedIn_of_eviction (h : s'.mm.pageEvictions = s.mm.pageEvictions + 1) {i : ℕ} {p : Page}
    (hframe : tableFrame s'.tables (accessedPage c s) = some i)
    (hp : framePages s.mm.frames i = some p) : evictedIn c s s' = [p] := by
  rw [evictedIn, if_neg (by omega), hframe, Option.bind_some, hp]
  rfl

/-- A page that is not translated is in no frame. -/
theorem accessedPage_not_mem (hs : PagingOk s) {key : FrameInfo → ℤ} {tick : ℤ}
    (hage : ByAge key s.mm.frames tick q)
    (hun : tableFrame s.tables (accessedPage c s) = none) :
    accessedPage c s ∉ DemandPager.pages q := by
  rw [hage.mem_pages]
  rintro ⟨f, hf, hp⟩
  obtain ⟨i, hi, rfl⟩ := List.mem_iff_getElem.mp hf
  have hat : (pagingView s).pageAt i = some (accessedPage c s) := by
    show framePages s.mm.frames i = _
    rw [framePages, List.getElem?_eq_getElem hi]
    exact hp
  cases hun.symm.trans (hs.agrees.translated hat)

/-- A call takes its evicted page from the front of the queue and adds its loaded page at the end. -/
def QueueStep (c : MemoryAccess) (s s' : PagingSystem) (q : List (Page × Bool)) : Prop :=
  s'.mm.policy = .fifo ∧
    ∃ q', ByAge FrameInfo.loadedTick s'.mm.frames s'.mm.currentTick q' ∧
      evictedIn c s s' ++ DemandPager.pages q' = DemandPager.pages q ++ loadedIn c s s'

variable (hpolicy : s.mm.policy = .fifo)
  (hage : ByAge FrameInfo.loadedTick s.mm.frames s.mm.currentTick q)

include hpolicy hage

/-- A call that loads nothing. -/
theorem queueStep_of_kept {mm : MemoryManager} (tables : ℤ → PageTable)
    (hpolicy' : mm.policy = s.mm.policy)
    (hframes : mm.frames.map (stampedFrame FrameInfo.loadedTick) =
      s.mm.frames.map (stampedFrame FrameInfo.loadedTick))
    (htick : mm.currentTick = s.mm.currentTick + 1) (hfaults : mm.pageFaults = s.mm.pageFaults)
    (hevictions : mm.pageEvictions = s.mm.pageEvictions) : QueueStep c s ⟨mm, tables⟩ q := by
  refine ⟨hpolicy'.trans hpolicy, q, htick ▸ hage.congr hframes, ?_⟩
  rw [evictedIn_of_same hevictions, loadedIn_of_same hfaults, List.nil_append, List.append_nil]

/-- A load into a free frame. -/
theorem queueStep_of_fill (hs : PagingOk s)
    (hun : tableFrame s.tables (accessedPage c s) = none) {i : ℕ}
    (hfree : s.mm.frames.findIdx? (fun f => !f.isOccupied) = some i) (writable : Bool)
    (history : List String) (tables : ℤ → PageTable) :
    QueueStep c s ⟨afterLoad c s i s.mm.clockHand s.mm.frames 0 0 writable history, tables⟩ q := by
  let s' : PagingSystem :=
    ⟨afterLoad c s i s.mm.clockHand s.mm.frames 0 0 writable history, tables⟩
  have hfollows : Follows .fifo s.mm.frames s.mm.clockHand s.mm.currentTick q := hage
  have hload := hfollows.loadFree c.isWrite hfree (accessedPage_not_mem hs hage hun)
  have hevicted : evictedIn c s s' = [] := evictedIn_of_same rfl
  have hloaded : loadedIn c s s' = [accessedPage c s] := loadedIn_of_fault rfl
  refine ⟨hpolicy, q ++ [(accessedPage c s, true)], ?_, ?_⟩
  · rw [afterLoad, loadedPage_eq hs.pid_eq]
    exact hload
  · rw [hevicted, hloaded, DemandPager.pages_append]
    rfl

/-- A load over the oldest page. -/
theorem queueStep_of_evict (hs : PagingOk s)
    (hun : tableFrame s.tables (accessedPage c s) = none) {i hand : ℕ} {frames : List FrameInfo}
    (hfull : ∀ f ∈ s.mm.frames, f.isOccupied = true)
    (hfound : victimOf s.mm.policy s.mm.numFrames s.mm.clockHand s.mm.frames =
      some (i, hand, frames)) (writes : ℕ) (writable : Bool) (history : List String)
    {tables : ℤ → PageTable} (hframe : tableFrame tables (accessedPage c s) = some i) :
    QueueStep c s ⟨afterLoad c s i hand frames 1 writes writable history, tables⟩ q := by
  let s' : PagingSystem := ⟨afterLoad c s i hand frames 1 writes writable history, tables⟩
  rw [hpolicy] at hfound
  obtain ⟨rfl, rfl, rfl⟩ := by simpa only [victimOf, Option.some.injEq, Prod.mk.injEq] using hfound
  have hne : s.mm.frames ≠ [] := by
    rw [← List.length_pos_iff, hs.manager.length_eq]
    exact hs.manager.pos
  let new := loaded (s.mm.currentTick + 1) c.isWrite
    (oldestFrame FrameInfo.loadedTick s.mm.frames) (accessedPage c s)
  have hnew : framePage new = some (accessedPage c s) := rfl
  obtain ⟨v, b, rest, hv, rfl, hload⟩ := hage.loadOldest hne
    (fun f hf => framePage_ne_none_iff.mpr (hfull f hf)) (accessedPage_not_mem hs hage hun) hnew rfl
  have hevicted : evictedIn c s s' = [v] := evictedIn_of_eviction rfl hframe hv
  have hloaded : loadedIn c s s' = [accessedPage c s] := loadedIn_of_fault rfl
  refine ⟨hpolicy, rest ++ [(accessedPage c s, true)], ?_, ?_⟩
  · rw [afterLoad, loadedPage_eq hs.pid_eq]
    exact hload
  · rw [hevicted, hloaded, DemandPager.pages_append]
    rfl

/-- **One call**: what it evicts is the oldest page, and what it loads becomes the youngest. -/
theorem fifo_step (hs : PagingOk s) (hmove : AccessMove c s r s') : QueueStep c s s' q := by
  have hkept := @queueStep_of_kept c s q hpolicy hage
  have htouched : ∀ i, (s.mm.frames.modify i (touched (s.mm.currentTick + 1) c.isWrite)).map
      (stampedFrame FrameInfo.loadedTick) =
        s.mm.frames.map (stampedFrame FrameInfo.loadedTick) :=
    map_modify_touched (fun _ => rfl) _
  cases hmove with
  | divides zero => exact hkept _ rfl rfl rfl rfl rfl
  | rejects size_pos missed invalid beyond => exact hkept _ rfl rfl rfl rfl rfl
  | overruns size_pos missed noEntry past => exact hkept _ rfl rfl rfl rfl rfl
  | hits size_pos cached lt => exact hkept _ rfl (htouched _) rfl rfl rfl
  | hitsOutside size_pos cached ge => exact hkept _ rfl rfl rfl rfl rfl
  | walks walk present lt => exact hkept _ rfl (htouched _) rfl rfl rfl
  | walksOutside walk present ge => exact hkept _ rfl rfl rfl rfl rfl
  | fills walk absent lt free =>
    exact queueStep_of_fill hpolicy hage hs (walk.untranslated absent) free _ _ _
  | evicts walk absent lt full found victim_eq =>
    refine queueStep_of_evict hpolicy hage hs (walk.untranslated absent) full found _ _ _ ?_
    rw [walk.tableFrame_loaded, Function.update_self, toNat_ofNat_of_lt hs.manager lt]

end Call

/-! ## Runs -/

/-- The evictions of a run are taken from the resident pages and then from the loads. -/
theorem evictions_prefix {s : PagingSystem} {q : List (Page × Bool)} (hs : PagingOk s)
    (hpolicy : s.mm.policy = .fifo)
    (hage : ByAge FrameInfo.loadedTick s.mm.frames s.mm.currentTick q) (calls : List MemoryAccess) :
    evictions s calls <+: DemandPager.pages q ++ loads s calls := by
  induction calls generalizing s q with
  | nil => exact List.nil_prefix
  | cons c calls ih =>
    obtain ⟨hpolicy', q', hage', hstep⟩ := fifo_step hpolicy hage hs (access_moves hs.manager c)
    have hrest := ih (access_spec hs c).ok hpolicy' hage'
    rw [evictions, loads, ← List.append_assoc, ← hstep, List.append_assoc]
    exact (List.prefix_append_right_inj _).mpr hrest

/-- **FIFO evicts in load order**, for every number of frames, TLB capacity, set of page tables and
sequence of accesses.
SOURCE: pkg/memory/page_replacement.go:65-204 -/
theorem evictions_prefix_loads (S : PagingSetup) (hpolicy : S.policy = .fifo)
    (calls : List MemoryAccess) : evictions S.init calls <+: loads S.init calls := by
  have hinit := inState_init (S := S) (R := .fifo) hpolicy
  exact evictions_prefix (pagingOk_init S) hinit.policy_eq hinit.follows calls

/-- Page `1` is loaded over page `0`. -/
theorem evictions_oneFrame :
    evictions oneFrame.init [⟨1, 0, false⟩, ⟨1, 4096, false⟩] <+:
      loads oneFrame.init [⟨1, 0, false⟩, ⟨1, 4096, false⟩] :=
  evictions_prefix_loads oneFrame rfl _

example : evictions oneFrame.init [⟨1, 0, false⟩, ⟨1, 4096, false⟩] = [(1, 0)] ∧
    loads oneFrame.init [⟨1, 0, false⟩, ⟨1, 4096, false⟩] = [(1, 0), (1, 1)] := by
  decide

end OsSimulator.Analysis
