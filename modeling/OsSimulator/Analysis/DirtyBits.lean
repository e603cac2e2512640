import OsSimulator.Analysis.PagingFrames
import OsSimulator.Interface.AccessMoves

/-!
# The dirty bits of the page tables

A write that hits the TLB marks the frame as dirty, but not the page-table entry: only the path
through the page table sets `pte.Dirty`.  So a page that is read first, and written while its
translation is cached, has a clean entry (`clean_entry_oneFrame`).

The entry is dirty exactly if a write to the page went through the page table (`bitsAt_after`), and
the dirty bits record the writes exactly in the runs in which each written page has such a write
(`dirtyRecords_iff`).
-/

set_option autoImplicit false

namespace OsSimulator.Analysis

open Model Interface Library

/-! ## The specification -/

/-- A successful write to page `p`. -/
structure WritesTo (p : Page) (c : MemoryAccess) (s : PagingSystem) : Prop where
  page_eq : accessedPage c s = p
  write : c.isWrite = true
  ok : ∃ a, (s.access c).1 = .ok a

section Specification

variable (S : PagingSetup) (calls : List MemoryAccess)

/-- A successful write to the page was made. -/
def Written (p : Page) : Prop :=
  ∃ done c, done ++ [c] <+: calls ∧ WritesTo p c (S.after done)

/-- A successful write to the page was made that missed the TLB. -/
def WrittenThrough (p : Page) : Prop :=
  ∃ done c, done ++ [c] <+: calls ∧ WritesTo p c (S.after done) ∧ tlbFrame c (S.after done) = none

/-- The valid entries are dirty if and only if their page was written. -/
def DirtyRecords : Prop :=
  ∀ (p : Page) (pte : PageTableEntry),
    ((S.after calls).tables p.1).entries[p.2.toNat]? = some pte → pte.valid = true →
      (pte.dirty = true ↔ Written S calls p)

end Specification

/-! ## One access -/

/-- The valid bit and the dirty bit of a page. -/
def bitsAt (s : PagingSystem) (p : Page) : Option (Bool × Bool) :=
  ((s.tables p.1).entries[p.2.toNat]?).map fun e => (e.valid, e.dirty)

section Access

variable {s : PagingSystem} {c : MemoryAccess} {p : Page}

theorem bitsAt_of_entry {pte : PageTableEntry}
    (hget : (s.tables p.1).entries[p.2.toNat]? = some pte) :
    bitsAt s p = some (pte.valid, pte.dirty) :=
  congrArg (Option.map _) hget

/-- The entry that a walk writes back. -/
theorem bitsAt_of_walk {s' : PagingSystem} {pte e : PageTableEntry} (hwalk : Walks c s pte)
    (htables : s'.tables = withEntry c s e) (hvalid : e.valid = pte.valid)
    (hdirty : e.dirty = (c.isWrite || pte.dirty)) :
    bitsAt s' (accessedPage c s) =
      (bitsAt s (accessedPage c s)).map fun b => (b.1, c.isWrite || b.2) := by
  have hself : (s'.tables c.pid).entries[(accessedPage c s).2.toNat]? = some e := by
    rw [htables]
    exact entry_self hwalk.entry_eq e
  rw [bitsAt_of_entry (p := accessedPage c s) hwalk.entry_eq,
    bitsAt_of_entry (p := accessedPage c s) hself, hvalid, hdirty]
  rfl

/-- **A write through the page table** sets the dirty bit. -/
theorem bitsAt_of_through (hmm : ManagerOk s.mm) (hwrite : WritesTo p c s)
    (hmiss : tlbFrame c s = none) :
    bitsAt (s.access c).2 p = (bitsAt s p).map fun b => (b.1, true) := by
  obtain ⟨rfl, hisWrite, hok⟩ := hwrite
  rcases (access_moves hmm c).tables_cases with ⟨-, hno⟩ | ⟨pte, e, hwalk, -, htables, hvalid, hdirty⟩
  · exact absurd ⟨hmiss, hok⟩ hno
  · rw [bitsAt_of_walk hwalk htables hvalid hdirty, hisWrite]
    rfl

/-- Any other access leaves the bits alone. -/
theorem bitsAt_of_not_through (hmm : ManagerOk s.mm)
    (hno : ¬ (WritesTo p c s ∧ tlbFrame c s = none)) : bitsAt (s.access c).2 p = bitsAt s p := by
  rcases (access_moves hmm c).tables_cases with
    ⟨htables, -⟩ | ⟨pte, e, hwalk, hok, htables, hvalid, hdirty⟩
  · unfold bitsAt
    rw [htables]
  · by_cases hp : p = accessedPage c s
    · subst hp
      have hread : c.isWrite = false := by
        rw [← Bool.not_eq_true]
        exact fun hisWrite => hno ⟨⟨rfl, hisWrite, hok⟩, hwalk.missed⟩
      rw [bitsAt_of_walk hwalk htables hvalid hdirty, hread]
      exact Option.map_id'
    · unfold bitsAt
      rw [htables]
      exact congrArg (Option.map _) (entry_of_ne hp e)

/-- A successful access is to a page with a valid entry. -/
theorem valid_of_ok (hs : Consistent s) (hok : ∃ a, (s.access c).1 = .ok a) :
    ∃ pte, accessedEntry c s = some pte ∧ pte.valid = true := by
  have hmove := access_moves hs.manager c
  generalize (s.access c).1 = r, (s.access c).2 = s' at hmove hok
  obtain ⟨a, rfl⟩ := hok
  cases hmove with
  | hits size_pos cached lt =>
    obtain ⟨pte, hget, hframe⟩ := Option.bind_eq_some_iff.mp (hs.cached cached)
    exact ⟨pte, hget, (entryFrame_eq_some_iff.mp hframe).1⟩
  | walks walk present lt => exact ⟨_, walk.entry_eq, walk.valid⟩
  | fills walk absent lt free => exact ⟨_, walk.entry_eq, walk.valid⟩
  | evicts walk absent lt full found victim_eq => exact ⟨_, walk.entry_eq, walk.valid⟩

end Access

/-! ## Runs -/

section Runs

variable {S : PagingSetup} {calls : List MemoryAccess} {p : Page}

theorem writtenThrough_append_iff (c : MemoryAccess) :
    WrittenThrough S (calls ++ [c]) p ↔
      WrittenThrough S calls p ∨ WritesTo p c (S.after calls) ∧ tlbFrame c (S.after calls) = none := by
  constructor
  · rintro ⟨done, c', hpre, hthrough⟩
    rcases List.prefix_concat_iff.mp hpre with heq | hpre
    · obtain ⟨rfl, rfl⟩ : done = calls ∧ c' = c := by simpa using heq
      exact .inr hthrough
    · exact .inl ⟨done, c', hpre, hthrough⟩
  · rintro (⟨done, c', hpre, hthrough⟩ | hthrough)
    · exact ⟨done, c', hpre.trans (List.prefix_append _ _), hthrough⟩
    · exact ⟨calls, c, List.prefix_refl _, hthrough⟩

/-- **The bits after a run**: a page is dirty if it was before, or a write went through its entry. -/
theorem bitsAt_after (calls : List MemoryAccess) (p : Page) :
    (WrittenThrough S calls p →
        bitsAt (S.after calls) p = (bitsAt S.init p).map fun b => (b.1, true)) ∧
      (¬ WrittenThrough S calls p → bitsAt (S.after calls) p = bitsAt S.init p) := by
  induction calls using List.reverseRecOn with
  | nil =>
    refine ⟨?_, fun _ => rfl⟩
    rintro ⟨done, c, hpre, -⟩
    exact absurd (List.prefix_nil.mp hpre) (by simp)
  | append_singleton calls c ih =>
    have hmm := (pagingOk_after (S := S) calls).1.manager
    rw [after_append, writtenThrough_append_iff]
    by_cases hnow : WritesTo p c (S.after calls) ∧ tlbFrame c (S.after calls) = none
    · refine ⟨fun _ => ?_, fun hno => absurd (.inr hnow) hno⟩
      rw [bitsAt_of_through hmm hnow.1 hnow.2]
      by_cases hbefore : WrittenThrough S calls p
      · rw [ih.1 hbefore, Option.map_map]
        rfl
      · rw [ih.2 hbefore]
    · rw [bitsAt_of_not_through hmm hnow, or_iff_left hnow]
      exact ih

/-- A page that was written has a valid entry, from the start. -/
theorem Written.valid (h : Written S calls p) : ∃ dirty, bitsAt S.init p = some (true, dirty) := by
  obtain ⟨done, c, -, rfl, -, hok⟩ := h
  obtain ⟨pte, hentry, hvalid⟩ := valid_of_ok (pagingOk_after done).1.consistent hok
  have hbits := bitsAt_of_entry (p := accessedPage c (S.after done)) hentry
  rw [hvalid] at hbits
  by_cases hthrough : WrittenThrough S done (accessedPage c (S.after done))
  · rw [(bitsAt_after done _).1 hthrough] at hbits
    obtain ⟨⟨valid, dirty⟩, hinit, heq⟩ := Option.map_eq_some_iff.mp hbits
    exact ⟨dirty, hinit.trans (congrArg (fun b => some (b, dirty)) (Prod.mk.inj heq).1)⟩
  · exact ⟨pte.dirty, ((bitsAt_after done _).2 hthrough).symm.trans hbits⟩

theorem WrittenThrough.written (h : WrittenThrough S calls p) : Written S calls p := by
  obtain ⟨done, c, hpre, hwrite, -⟩ := h
  exact ⟨done, c, hpre, hwrite⟩

end Runs

/-- **The dirty bits record the writes exactly in the runs in which every written page has a write
that missed the TLB**, for every policy, number of frames and TLB capacity.
SOURCE: pkg/memory/page_replacement.go:65-124 -/
theorem dirtyRecords_iff (S : PagingSetup)
    (hclean : ∀ pid, ∀ e ∈ (S.tables pid).entries, e.valid = true → e.dirty = false)
    (calls : List MemoryAccess) :
    DirtyRecords S calls ↔ ∀ p, Written S calls p → WrittenThrough S calls p := by
  have hinit : ∀ p dirty, bitsAt S.init p = some (true, dirty) → dirty = false := by
    intro p dirty hbits
    obtain ⟨e, hget, heq⟩ := Option.map_eq_some_iff.mp hbits
    obtain ⟨hvalid, rfl⟩ := Prod.mk.inj heq
    exact hclean p.1 e (List.mem_of_getElem? hget) hvalid
  constructor
  · intro hrecords p hwritten
    by_contra hno
    obtain ⟨dirty, hbits⟩ := hwritten.valid
    obtain rfl := hinit p dirty hbits
    rw [← (bitsAt_after calls p).2 hno] at hbits
    obtain ⟨pte, hget, heq⟩ := Option.map_eq_some_iff.mp hbits
    obtain ⟨hvalid, hdirty⟩ := Prod.mk.inj heq
    rw [(hrecords p pte hget hvalid).mpr hwritten] at hdirty
    cases hdirty
  · intro hthrough p pte hget hvalid
    have hbits := bitsAt_of_entry hget
    rw [hvalid] at hbits
    by_cases hp : WrittenThrough S calls p
    · rw [(bitsAt_after calls p).1 hp] at hbits
      obtain ⟨b, -, heq⟩ := Option.map_eq_some_iff.mp hbits
      exact iff_of_true (Prod.mk.inj heq).2.symm hp.written
    · rw [(bitsAt_after calls p).2 hp] at hbits
      rw [hinit p _ hbits]
      exact iff_of_false Bool.false_ne_true fun hwritten => hp (hthrough p hwritten)

theorem clean_oneFrame (pid : ℤ) :
    ∀ e ∈ (oneFrame.tables pid).entries, e.valid = true → e.dirty = false := by
  intro e he _
  dsimp only [oneFrame] at he
  split at he
  · simp only [List.mem_cons, List.not_mem_nil, or_false, or_self] at he
    rw [he]
  · cases he

/-- Both pages are written with a miss, page `0` once more through the TLB, and page `1` takes its
frame. -/
theorem dirtyRecords_oneFrame :
    DirtyRecords oneFrame [⟨1, 0, true⟩, ⟨1, 0, true⟩, ⟨1, 4096, true⟩, ⟨1, 4096, false⟩] := by
  refine (dirtyRecords_iff oneFrame clean_oneFrame _).mpr ?_
  rintro p ⟨done, c, ⟨rest, hrest⟩, hpage, hwrite, -⟩
  have hfirst : WrittenThrough oneFrame
      [⟨1, 0, true⟩, ⟨1, 0, true⟩, ⟨1, 4096, true⟩, ⟨1, 4096, false⟩] (1, 0) :=
    ⟨[], _, ⟨_, rfl⟩, ⟨by decide, rfl, 0, by decide⟩, by decide⟩
  rcases done with _ | ⟨a, _ | ⟨b, _ | ⟨d, _ | ⟨e, done⟩⟩⟩⟩
  · cases hrest
    exact hpage ▸ hfirst
  · cases hrest
    exact hpage ▸ hfirst
  · cases hrest
    rw [← hpage]
    exact ⟨[⟨1, 0, true⟩, ⟨1, 0, true⟩], _, ⟨_, rfl⟩, ⟨by decide, rfl, 0, by decide⟩, by decide⟩
  · cases hrest
    cases hwrite
  · simp at hrest

/-- The page is read, which caches its translation, and written; its entry stays clean. -/
theorem clean_entry_oneFrame :
    bitsAt (oneFrame.after [⟨1, 0, false⟩, ⟨1, 0, true⟩]) (1, 0) = some (true, false) ∧
      Written oneFrame [⟨1, 0, false⟩, ⟨1, 0, true⟩] (1, 0) ∧
      ¬ DirtyRecords oneFrame [⟨1, 0, false⟩, ⟨1, 0, true⟩] := by
  have hbits : bitsAt (oneFrame.after [⟨1, 0, false⟩, ⟨1, 0, true⟩]) (1, 0) = some (true, false) := by
    decide
  have hwritten : Written oneFrame [⟨1, 0, false⟩, ⟨1, 0, true⟩] (1, 0) :=
    ⟨[⟨1, 0, false⟩], ⟨1, 0, true⟩, List.prefix_refl _, by decide, rfl, 0, by decide⟩
  refine ⟨hbits, hwritten, fun hrecords => ?_⟩
  obtain ⟨pte, hget, heq⟩ := Option.map_eq_some_iff.mp hbits
  obtain ⟨hvalid, hdirty⟩ := Prod.mk.inj heq
  rw [(hrecords (1, 0) pte hget hvalid).mpr hwritten] at hdirty
  cases hdirty

end OsSimulator.Analysis
