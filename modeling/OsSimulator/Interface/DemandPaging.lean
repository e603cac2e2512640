import OsSimulator.Interface.AccessMoves

/-!
# Demand paging

Page tables whose entries are absent until `AccessMemory` loads the page satisfy `PagingOk`: a page
that is in a frame is translated to it, and no translation leads outside the frame table.

`access_spec` is the refinement: every call of `AccessMemory` is a move of the abstract pager,
whatever the policy, and it never panics on a frame.  In the frame table, an access to a translated
page touches the frame of the translation (`access_translated`), and one to a page that is not
translated loads it, into a free frame if there is one and over the victim of the policy otherwise
(`access_untranslated`).
-/

set_option autoImplicit false

namespace OsSimulator.Interface

open Model Library

/-- Page tables, frames and TLB agree. -/
structure PagingOk (s : PagingSystem) : Prop where
  manager : ManagerOk s.mm
  pid_eq : ∀ pid, (s.tables pid).pid = pid
  agrees : (pagingView s).Agrees
  tlb : TLBAgrees (tableFrame s.tables) s.mm.tlb
  sized : ∀ p, tableFrame s.tables p ≠ none → (s.tables p.1).pageSize ≠ 0

/-- What a call may do: resolve its page to a frame of the memory, or fail without effect
on pages and frames. -/
inductive AccessSpec (c : MemoryAccess) (s : PagingSystem) : AccessResult → PagingSystem → Prop where
  | ok {s' : PagingSystem} (f : UInt64) (lt : f.toNat < s.mm.numFrames)
      (size_pos : (s.tables c.pid).pageSize ≠ 0)
      (moves : (pagingView s).Moves (pagingView s') (some (accessedPage c s, f.toNat))) :
      AccessSpec c s
        (.ok (f * (s.tables c.pid).pageSize + c.vAddr % (s.tables c.pid).pageSize)) s'
  | fail {r : AccessResult} {s' : PagingSystem} (not_ok : ∀ a, r ≠ .ok a)
      (same : pagingView s' = pagingView s)
      (unmapped : (pagingView s).frameOf (accessedPage c s) = none) :
      AccessSpec c s r s'

theorem AccessSpec.exists_moves {c : MemoryAccess} {s s' : PagingSystem} {r : AccessResult}
    (h : AccessSpec c s r s') : ∃ m, (pagingView s).Moves (pagingView s') m := by
  cases h with
  | ok f lt size_pos moves => exact ⟨_, moves⟩
  | fail not_ok same unmapped =>
    rw [same]
    exact ⟨none, .fail⟩

/-- The state and the result that a call has to account for. -/
structure AccessOk (c : MemoryAccess) (s : PagingSystem) (r : AccessResult) (s' : PagingSystem) :
    Prop where
  spec : AccessSpec c s r s'
  ok : PagingOk s'
  shape : SameShape s s'

/-- The page of a loaded frame is the accessed page. -/
theorem loadedPage_eq {c : MemoryAccess} {s : PagingSystem}
    (hpid : ∀ pid, (s.tables pid).pid = pid) :
    ((s.tables c.pid).pid, (accessedPage c s).2) = accessedPage c s :=
  Prod.ext (hpid c.pid) rfl

/-! ## Refinement -/

section Refinement

variable {s s' : PagingSystem} {c : MemoryAccess} {r : AccessResult}

theorem PagingOk.consistent (hs : PagingOk s) : Consistent s := ⟨hs.manager, hs.pid_eq, hs.tlb⟩

/-- A translation leads into the frame table. -/
theorem PagingOk.frame_lt (hs : PagingOk s) {p : Page} {f : ℕ}
    (hp : (pagingView s).frameOf p = some f) : f < s.mm.numFrames := by
  have hback := hs.agrees.backed hp
  by_contra hge
  apply hback
  show framePages s.mm.frames f = none
  unfold framePages
  rw [List.getElem?_eq_none (by rw [hs.manager.length_eq]; omega)]
  rfl

/-- An access that keeps the pages in their frames resolves the page as it is translated. -/
theorem AccessSpec.resolves {pfn : UInt64} (hsize : (s.tables c.pid).pageSize ≠ 0)
    (hframe : tableFrame s.tables (accessedPage c s) = some pfn.toNat)
    (hlt : pfn.toNat < s.mm.numFrames) (htables : tableFrame s'.tables = tableFrame s.tables)
    (hpages : framePages s'.mm.frames = framePages s.mm.frames) :
    AccessSpec c s (.ok (addressIn c s pfn)) s' := by
  have hview : pagingView s' = pagingView s := congrArg₂ PagerView.mk htables hpages
  refine .ok pfn hlt hsize ?_
  rw [hview]
  exact .resolve hframe

theorem framePages_touched (frames : List FrameInfo) (i : ℕ) (tick : ℤ) (isWrite : Bool) :
    framePages (frames.modify i (touched tick isWrite)) = framePages frames :=
  framePages_modify fun _ => rfl

/-- The view when the accessed page has been loaded over the same contents of the frames. -/
theorem PagingOk.view_loaded (hs : PagingOk s) {pte : PageTableEntry} (hwalk : Walks c s pte)
    {i hand : ℕ} (hi : i < s.mm.numFrames) {frames : List FrameInfo}
    (hlen : frames.length = s.mm.numFrames) (hpages : framePages frames = framePages s.mm.frames)
    (evictions writes : ℕ) (history : List String) :
    pagingView ⟨afterLoad c s i hand frames evictions writes pte.readWrite history,
        withEntry c s (accessedAs c.isWrite (loadedAs i pte))⟩ =
      (pagingView s).load (accessedPage c s) (UInt64.ofNat i).toNat := by
  have hframes : framePages (frames.set i (loaded (s.mm.currentTick + 1) c.isWrite i
      ((s.tables c.pid).pid, (accessedPage c s).2))) =
      Function.update (framePages s.mm.frames) (UInt64.ofNat i).toNat (some (accessedPage c s)) := by
    rw [framePages_set (hlen.symm ▸ hi), hpages, loadedPage_eq hs.pid_eq,
      toNat_ofNat_of_lt hs.manager hi]
    rfl
  exact congrArg₂ PagerView.mk (hwalk.tableFrame_loaded c.isWrite i) hframes

/-- **Every move of an access is a move of the abstract pager.** -/
theorem PagingOk.spec_of_move (hs : PagingOk s) (h : AccessMove c s r s') : AccessSpec c s r s' := by
  have hinside : ∀ {f}, s.mm.numFrames ≤ f → tableFrame s.tables (accessedPage c s) ≠ some f :=
    fun hge hframe => Nat.not_lt.mpr hge (hs.frame_lt hframe)
  cases h with
  | divides zero =>
    -- dividing by the page size panics; a table of page size 0 translates nothing
    refine .fail (by simp) rfl ?_
    by_contra hne
    exact hs.sized _ hne zero
  | rejects size_pos missed invalid beyond =>
    refine .fail (by simp [notMapped]) rfl ?_
    show (accessedEntry c s).bind entryFrame = none
    cases hentry : accessedEntry c s with
    | none => rfl
    | some pte => simp [entryFrame, invalid pte hentry]
  | overruns size_pos missed noEntry passed =>
    exact .fail (by simp) rfl (congrArg (Option.bind · entryFrame) noEntry)
  | hits size_pos cached lt =>
    exact .resolves size_pos (hs.consistent.cached cached) lt rfl (framePages_touched ..)
  | hitsOutside size_pos cached ge => exact absurd (hs.consistent.cached cached) (hinside ge)
  | walks walk present lt =>
    exact .resolves walk.size_pos (walk.translated present) lt
      (tableFrame_accessedAs walk.entry_eq _) (framePages_touched ..)
  | walksOutside walk present ge => exact absurd (walk.translated present) (hinside ge)
  | fills walk absent lt free =>
    refine .ok _ (by rwa [toNat_ofNat_of_lt hs.manager lt]) walk.size_pos ?_
    rw [hs.view_loaded walk lt hs.manager.length_eq rfl]
    exact .fault _ (walk.untranslated absent)
  | evicts walk absent lt full found victim_eq =>
    obtain ⟨-, -, d, rfl⟩ := victimOf_spec hs.manager found
    refine .ok _ (by rwa [toNat_ofNat_of_lt hs.manager lt]) walk.size_pos ?_
    rw [hs.view_loaded walk lt (length_mapArc.trans hs.manager.length_eq) framePages_mapArc]
    exact .fault _ (walk.untranslated absent)

/-- **Refinement**: every call is a move of the abstract pager and keeps the invariant. -/
theorem access_spec (hs : PagingOk s) (c : MemoryAccess) :
    AccessOk c s (s.access c).1 (s.access c).2 := by
  have hmove := access_moves hs.manager c
  have hspec := hs.spec_of_move hmove
  obtain ⟨m, hm⟩ := hspec.exists_moves
  have hcons := hs.consistent.move hmove
  refine ⟨hspec, ⟨hcons.manager, hcons.pid_eq, hs.agrees.move hm, hcons.tlb, fun p hp => ?_⟩,
    hmove.sameShape⟩
  rw [hmove.sameShape.pageSize_eq]
  rcases hmove.tableFrame_cases hs.manager with hkept | ⟨i, -, -, hsize, hmade⟩
  · rw [hkept] at hp
    exact hs.sized p hp
  · by_cases hpage : p = accessedPage c s
    · rw [hpage]
      exact hsize
    · rw [hmade, Function.update_of_ne hpage] at hp
      exact hs.sized p hp

end Refinement

/-! ## The frame table -/

/-- The memory manager one tick later, with the given frames, hand and number of faults. -/
structure FramesAfter (mm mm' : MemoryManager) (frames : List FrameInfo) (hand faults : ℕ) :
    Prop where
  frames_eq : mm'.frames = frames
  hand_eq : mm'.clockHand = hand
  faults_eq : mm'.pageFaults = faults
  tick_eq : mm'.currentTick = mm.currentTick + 1
  policy_eq : mm'.policy = mm.policy

section Paging

variable {s : PagingSystem} {c : MemoryAccess}

/-- **An access to a translated page** touches the frame of the translation. -/
theorem access_translated (hs : PagingOk s) {f : ℕ}
    (hframe : (pagingView s).frameOf (accessedPage c s) = some f) :
    FramesAfter s.mm (s.access c).2.mm
      (s.mm.frames.modify f (touched (s.mm.currentTick + 1) c.isWrite)) s.mm.clockHand
      s.mm.pageFaults := by
  have htrans : tableFrame s.tables (accessedPage c s) = some f := hframe
  have hlt := hs.frame_lt hframe
  have hmove := access_moves hs.manager c
  generalize (s.access c).1 = r, (s.access c).2 = s' at hmove ⊢
  have hno : tableFrame s.tables (accessedPage c s) ≠ none := by
    rw [htrans]
    exact Option.some_ne_none f
  obtain ⟨pte, hget, hentry⟩ := Option.bind_eq_some_iff.mp htrans
  cases hmove with
  | divides zero => exact absurd zero (hs.sized _ hno)
  | rejects size_pos missed invalid beyond =>
    have hvalid := (entryFrame_eq_some_iff.mp hentry).1
    rw [invalid pte hget] at hvalid
    cases hvalid
  | overruns size_pos missed noEntry passed => cases noEntry.symm.trans hget
  | hits size_pos cached lt =>
    obtain rfl := Option.some.inj (htrans.symm.trans (hs.consistent.cached cached))
    exact ⟨rfl, rfl, rfl, rfl, rfl⟩
  | hitsOutside size_pos cached ge =>
    obtain rfl := Option.some.inj (htrans.symm.trans (hs.consistent.cached cached))
    exact absurd hlt (Nat.not_lt.mpr ge)
  | walks walk present lt =>
    obtain rfl := Option.some.inj (htrans.symm.trans (walk.translated present))
    exact ⟨rfl, rfl, rfl, rfl, rfl⟩
  | walksOutside walk present ge =>
    obtain rfl := Option.some.inj (htrans.symm.trans (walk.translated present))
    exact absurd hlt (Nat.not_lt.mpr ge)
  | fills walk absent lt free => exact absurd (walk.untranslated absent) hno
  | evicts walk absent lt full found victim_eq => exact absurd (walk.untranslated absent) hno

/-- **An access to a page that is not translated** loads it, into the first free frame or
over the victim of the policy. -/
theorem access_untranslated (hs : PagingOk s) (hsize : (s.tables c.pid).pageSize ≠ 0)
    {pte : PageTableEntry}
    (hget : (s.tables c.pid).entries[(accessedPage c s).2.toNat]? = some pte)
    (hvalid : pte.valid = true) (hnone : (pagingView s).frameOf (accessedPage c s) = none) :
    ∃ i hand frames, i < s.mm.numFrames ∧
      FramesAfter s.mm (s.access c).2.mm
        (frames.set i (loaded (s.mm.currentTick + 1) c.isWrite i (accessedPage c s))) hand
        (s.mm.pageFaults + 1) ∧
      ((s.mm.frames.findIdx? (fun f => !f.isOccupied) = some i ∧ hand = s.mm.clockHand ∧
          frames = s.mm.frames) ∨
        ((∀ f ∈ s.mm.frames, f.isOccupied = true) ∧
          victimOf s.mm.policy s.mm.numFrames s.mm.clockHand s.mm.frames =
            some (i, hand, frames))) := by
  have hun : tableFrame s.tables (accessedPage c s) = none := hnone
  have hmove := access_moves hs.manager c
  generalize (s.access c).1 = r, (s.access c).2 = s' at hmove ⊢
  cases hmove with
  | divides zero => exact absurd zero hsize
  | rejects size_pos missed invalid beyond =>
    rw [invalid pte hget] at hvalid
    cases hvalid
  | overruns size_pos missed noEntry passed => cases noEntry.symm.trans hget
  | hits size_pos cached lt => exact absurd (hun.symm.trans (hs.consistent.cached cached)) (by simp)
  | hitsOutside size_pos cached ge =>
    exact absurd (hun.symm.trans (hs.consistent.cached cached)) (by simp)
  | walks walk present lt => exact absurd (hun.symm.trans (walk.translated present)) (by simp)
  | walksOutside walk present ge => exact absurd (hun.symm.trans (walk.translated present)) (by simp)
  | fills walk absent lt free =>
    refine ⟨_, _, _, lt, ⟨?_, rfl, rfl, rfl, rfl⟩, .inl ⟨free, rfl, rfl⟩⟩
    rw [afterLoad, loadedPage_eq hs.pid_eq]
  | evicts walk absent lt full found victim_eq =>
    refine ⟨_, _, _, lt, ⟨?_, rfl, rfl, rfl, rfl⟩, .inr ⟨full, found⟩⟩
    rw [afterLoad, loadedPage_eq hs.pid_eq]

end Paging

end OsSimulator.Interface
