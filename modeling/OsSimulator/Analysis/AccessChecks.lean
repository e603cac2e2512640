import OsSimulator.Analysis.PagingRemap
import OsSimulator.Model.ProcessLifecycle

/-!
# What `AccessMemory` does not check

The page tables here are those that `NewPageTable` and `MapPage` build (`Built`), and the memory
manager is in any state that accesses can lead to.  Three checks are missing:

* `Translate` refuses a write to a read-only page; `AccessMemory` performs it
  (`sameAsTranslate_iff`).
* An entry of `MapPage` may have any frame number, and it is used as an index into the frame table
  (`staysInside_iff`).  The table of a process after `Exec` is of this kind
  (`exec_table_outside`).
* The page number is compared with the number of pages as a signed number, so that the check passes
  from `2 ^ 63` on and the page table is indexed out of range (`boundsChecked_iff`).
-/

set_option autoImplicit false

namespace OsSimulator.Analysis

open Model Interface

/-! ## Runs on any page tables -/

/-- The state after the given accesses. -/
def RemapSetup.run (S : RemapSetup) (calls : List MemoryAccess) : PagingSystem := S.init.run calls

section Runs

variable {S : RemapSetup}

theorem run_append (calls : List MemoryAccess) (c : MemoryAccess) :
    S.run (calls ++ [c]) = ((S.run calls).access c).2 := by
  unfold RemapSetup.run PagingSystem.run
  rw [List.foldl_append]
  rfl

theorem consistent_run (calls : List MemoryAccess) : Consistent (S.run calls) := by
  induction calls using List.reverseRecOn with
  | nil => exact consistent_new _ _ _ S.pid_eq
  | append_singleton calls c ih =>
    rw [run_append]
    exact ih.access c

end Runs

/-- The page tables that `NewPageTable` and `MapPage` build.
SOURCE: pkg/memory/paging.go:38-61 -/
inductive Built : PageTable → Prop where
  | new (pid : ℤ) (numPages : ℕ) (pageSize : UInt64) (int : numPages < 2 ^ 63) :
      Built (newPageTable pid numPages pageSize)
  | map {pt pt' : PageTable} (built : Built pt) (vpn pfn : UInt64) (writable : Bool)
      (mapped : pt.mapPage vpn pfn writable = some pt') : Built pt'

/-- They have a page size, and a length that is an `int`. -/
theorem Built.wellFormed {pt : PageTable} (h : Built pt) :
    pt.pageSize ≠ 0 ∧ pt.entries.length < 2 ^ 63 := by
  induction h with
  | new pid numPages pageSize int =>
    refine ⟨?_, List.length_replicate.symm ▸ int⟩
    show (if pageSize = 0 then (4096 : UInt64) else pageSize) ≠ 0
    split_ifs with hzero
    · decide
    · exact hzero
  | map built vpn pfn writable mapped ih =>
    unfold PageTable.mapPage at mapped
    split_ifs at mapped with hint hlt
    · obtain rfl := Option.some.inj mapped
      exact ⟨ih.1, List.length_set.symm ▸ ih.2⟩
    · obtain rfl := Option.some.inj mapped
      exact ih

/-! ## Protection -/

/-- The dirty bits of page tables and frames are the same. -/
structure SameDirty (s s' : PagingSystem) : Prop where
  entries_eq : ∀ pid, (s'.tables pid).entries.map PageTableEntry.dirty =
    (s.tables pid).entries.map PageTableEntry.dirty
  frames_eq : s'.mm.frames.map FrameInfo.isDirty = s.mm.frames.map FrameInfo.isDirty

/-- The call returns the address of `Translate`, or an error when `Translate` does. -/
def SameAsTranslate (c : MemoryAccess) (s : PagingSystem) : Prop :=
  ∃ t pt, (s.tables c.pid).translate c.vAddr c.isWrite = some (t, pt) ∧
    match outcome t with
    | .address a => (s.access c).1 = .ok a
    | .fault _ => (∃ message, (s.access c).1 = .error message) ∧ SameDirty s (s.access c).2

section Protection

variable {s : PagingSystem} {c : MemoryAccess} {pte : PageTableEntry}

/-- **A present page is accessed**, whatever its protection, with a TLB hit and with a miss. -/
theorem access_of_present (hs : Consistent s) (hsize : (s.tables c.pid).pageSize ≠ 0)
    (hentry : accessedEntry c s = some pte) (hvalid : pte.valid = true)
    (hpresent : pte.present = true) (hframe : pte.pfn.toNat < s.mm.numFrames) :
    (s.access c).1 = .ok (addressIn c s pte.pfn) := by
  have htrans : tableFrame s.tables (accessedPage c s) = some pte.pfn.toNat := by
    rw [tableFrame_accessed hentry]
    exact entryFrame_eq_some_iff.mpr ⟨hvalid, hpresent, rfl⟩
  have hmove := access_moves hs.manager c
  generalize (s.access c).1 = r, (s.access c).2 = s' at hmove ⊢
  cases hmove with
  | divides zero => exact absurd zero hsize
  | rejects size_pos missed invalid beyond =>
    rw [invalid pte hentry] at hvalid
    cases hvalid
  | overruns size_pos missed noEntry past => cases noEntry.symm.trans hentry
  | hits size_pos cached lt =>
    have hpfn := Option.some.inj (htrans.symm.trans (hs.cached cached))
    rw [UInt64.toNat_inj.mp hpfn]
  | hitsOutside size_pos cached ge =>
    have hpfn := Option.some.inj (htrans.symm.trans (hs.cached cached))
    omega
  | walks walk present lt =>
    obtain rfl := Option.some.inj (hentry.symm.trans walk.entry_eq)
    rfl
  | walksOutside walk present ge =>
    obtain rfl := Option.some.inj (hentry.symm.trans walk.entry_eq)
    omega
  | fills walk absent lt free => cases htrans.symm.trans (walk.untranslated absent)
  | evicts walk absent lt full found victim_eq => cases htrans.symm.trans (walk.untranslated absent)

end Protection

/-- **`AccessMemory` agrees with `Translate` exactly when it need not refuse**: on a present page,
in every state that accesses lead to, unless it is a write to a read-only page.
SOURCE: pkg/memory/page_replacement.go:65-124 -/
theorem sameAsTranslate_iff (S : RemapSetup) (calls : List MemoryAccess) (c : MemoryAccess)
    (pte : PageTableEntry) (hsize : ((S.run calls).tables c.pid).pageSize ≠ 0)
    (hentry : accessedEntry c (S.run calls) = some pte) (hvalid : pte.valid = true)
    (hpresent : pte.present = true) (hframe : pte.pfn.toNat < (S.run calls).mm.numFrames) :
    SameAsTranslate c (S.run calls) ↔ ¬ (c.isWrite = true ∧ pte.readWrite = false) := by
  have haccess := access_of_present (consistent_run calls) hsize hentry hvalid hpresent hframe
  have hcheck := checkEntry_of_present hvalid hpresent c.isWrite
  obtain ⟨t, htranslate, hout⟩ := translate_of_entry hsize hentry c.isWrite
  by_cases hdenied : c.isWrite = true ∧ pte.readWrite = false
  · refine iff_of_false ?_ (not_not_intro hdenied)
    have hrefused : (c.isWrite && !pte.readWrite) = true := by
      simpa using hdenied
    rw [hrefused] at hcheck
    rw [(entryOutcome_of_fault hcheck _ _).1] at hout
    rintro ⟨t', pt', htranslate', hsame⟩
    obtain ⟨rfl, -⟩ := Prod.mk.inj (Option.some.inj (htranslate.symm.trans htranslate'))
    rw [hout] at hsame
    obtain ⟨⟨message, herror⟩, -⟩ := hsame
    rw [haccess] at herror
    cases herror
  · refine iff_of_true ?_ hdenied
    have hallowed : (c.isWrite && !pte.readWrite) = false := by
      simpa using hdenied
    rw [hallowed] at hcheck
    rw [(entryOutcome_of_ok hcheck _ _).1] at hout
    refine ⟨t, _, htranslate, ?_⟩
    rw [hout]
    exact haccess

/-- One page, mapped read-only to frame `0`. -/
def readOnlyTable (pid : ℤ) : PageTable :=
  { newPageTable pid 1 4096 with entries := [mappedEntry 0 false] }

theorem readOnlyTable_eq (pid : ℤ) :
    (newPageTable pid 1 4096).mapPage 0 0 false = some (readOnlyTable pid) := by
  have hlt : (0 : UInt64).toNat < (newPageTable pid 1 4096).entries.length := Nat.zero_lt_one
  exact mapPage_of_lt hlt 0 false

def readOnly : RemapSetup where
  numFrames := 1
  policy := .clock
  tlbCapacity := 1
  tables := readOnlyTable
  pid_eq := fun _ => rfl

/-- The page has been read, and reading it again through the TLB is fine. -/
theorem sameAsTranslate_readOnly :
    let s := readOnly.run [⟨1, 0, false⟩]
    tlbFrame ⟨1, 0, false⟩ s = some 0 ∧ SameAsTranslate ⟨1, 0, false⟩ s :=
  ⟨by decide, (sameAsTranslate_iff readOnly [⟨1, 0, false⟩] ⟨1, 0, false⟩ (mappedEntry 0 false)
    (by decide) rfl rfl rfl (by decide)).mpr (by decide)⟩

/-- A write to the page succeeds and marks it as dirty. -/
theorem write_readOnly :
    (readOnly.init.access ⟨1, 0, true⟩).1 = .ok 0 ∧
      ((readOnly.tables 1).translate 0 true).map (fun r => outcome r.1) =
        some (.fault .protectionFault) ∧
      ((readOnly.init.access ⟨1, 0, true⟩).2.tables 1).entries.map PageTableEntry.dirty = [true] ∧
      ¬ SameAsTranslate ⟨1, 0, true⟩ readOnly.init := by
  have haccess : (readOnly.init.access ⟨1, 0, true⟩).1 = .ok 0 := by decide
  have hrefused : ((readOnly.tables 1).translate 0 true).map (fun r => outcome r.1) =
      some (.fault .protectionFault) := by decide
  refine ⟨haccess, hrefused, by decide, ?_⟩
  rintro ⟨t, pt, htranslate, hsame⟩
  have hout : outcome t = .fault .protectionFault := by
    have htranslate' : (readOnly.tables 1).translate 0 true = some (t, pt) := htranslate
    rw [htranslate'] at hrefused
    exact Option.some.inj hrefused
  rw [hout] at hsame
  obtain ⟨⟨message, herror⟩, -⟩ := hsame
  rw [haccess] at herror
  cases herror

/-! ## Frame numbers -/

/-- The call returns an error or an address in physical memory. -/
def StaysInside (c : MemoryAccess) (s : PagingSystem) : Prop :=
  match (s.access c).1 with
  | .ok a => a.toNat < s.mm.numFrames * (s.tables c.pid).pageSize.toNat
  | .error _ => True
  | .panic => False

/-- The page is mapped into the frame table, and its number passes for an `int`. -/
structure Addressable (c : MemoryAccess) (s : PagingSystem) : Prop where
  frame_lt : ∀ pte, accessedEntry c s = some pte → pte.valid = true → pte.present = true →
    pte.pfn.toNat < s.mm.numFrames
  page_lt : accessedEntry c s = none → (accessedPage c s).2.toNat < 2 ^ 63

section Frames

variable {s s' : PagingSystem} {c : MemoryAccess} {r : AccessResult}

theorem addressIn_lt {pfn : UInt64} (hsize : (s.tables c.pid).pageSize ≠ 0)
    (hlt : pfn.toNat < s.mm.numFrames) :
    (addressIn c s pfn).toNat < s.mm.numFrames * (s.tables c.pid).pageSize.toNat := by
  let size := (s.tables c.pid).pageSize.toNat
  have hpos : 0 < size := Nat.pos_of_ne_zero fun hzero => hsize (UInt64.toNat_inj.mp hzero)
  -- the sum may wrap around, which makes it smaller
  have hwrap : (addressIn c s pfn).toNat ≤ pfn.toNat * size + c.vAddr.toNat % size := by
    unfold addressIn
    rw [UInt64.toNat_add, UInt64.toNat_mul, UInt64.toNat_mod]
    exact (Nat.mod_le _ _).trans (Nat.add_le_add_right (Nat.mod_le _ _) _)
  calc (addressIn c s pfn).toNat
      ≤ pfn.toNat * size + c.vAddr.toNat % size := hwrap
    _ < pfn.toNat * size + size := Nat.add_lt_add_left (Nat.mod_lt _ hpos) _
    _ = (pfn.toNat + 1) * size := (Nat.succ_mul _ _).symm
    _ ≤ s.mm.numFrames * size := Nat.mul_le_mul_right _ hlt

/-- The condition in terms of the translations. -/
theorem addressable_iff :
    Addressable c s ↔
      (∀ f, tableFrame s.tables (accessedPage c s) = some f → f < s.mm.numFrames) ∧
        ((s.tables c.pid).entries.length ≤ (accessedPage c s).2.toNat →
          (accessedPage c s).2.toNat < 2 ^ 63) := by
  constructor
  · refine fun h => ⟨fun f hf => ?_, fun hge => h.page_lt (List.getElem?_eq_none hge)⟩
    obtain ⟨pte, hentry, hframe⟩ := Option.bind_eq_some_iff.mp hf
    obtain ⟨hvalid, hpresent, rfl⟩ := entryFrame_eq_some_iff.mp hframe
    exact h.frame_lt pte hentry hvalid hpresent
  · rintro ⟨hframe, hpage⟩
    refine ⟨fun pte hentry hvalid hpresent => hframe _ ?_, fun hnone => ?_⟩
    · rw [tableFrame_accessed hentry]
      exact entryFrame_eq_some_iff.mpr ⟨hvalid, hpresent, rfl⟩
    · exact hpage (List.getElem?_eq_none_iff.mp hnone)

theorem addressable_of_translated {f : ℕ} (hlt : f < s.mm.numFrames)
    (hframe : tableFrame s.tables (accessedPage c s) = some f) : Addressable c s := by
  obtain ⟨pte, hentry, hpte⟩ := Option.bind_eq_some_iff.mp hframe
  refine addressable_iff.mpr ⟨fun f' hframe' => ?_, fun hge => ?_⟩
  · rw [← Option.some.inj (hframe.symm.trans hframe')]
    exact hlt
  · exact absurd hge (Nat.not_le.mpr (List.getElem?_eq_some_iff.mp hentry).1)

/-- A page that is not present can be loaded. -/
theorem addressable_of_absent {pte : PageTableEntry} (hentry : accessedEntry c s = some pte)
    (habsent : pte.present = false) : Addressable c s := by
  refine ⟨fun pte' hentry' _ hpresent => ?_, fun hnone => ?_⟩
  · obtain rfl := Option.some.inj (hentry.symm.trans hentry')
    cases habsent.symm.trans hpresent
  · cases hnone.symm.trans hentry

/-- **One call** stays inside exactly if its page is addressable. -/
theorem staysInside_iff_addressable (hs : Consistent s) (hsize : (s.tables c.pid).pageSize ≠ 0)
    (hlen : (s.tables c.pid).entries.length < 2 ^ 63) : StaysInside c s ↔ Addressable c s := by
  have houtside : ∀ {f}, s.mm.numFrames ≤ f →
      tableFrame s.tables (accessedPage c s) = some f → ¬ Addressable c s :=
    fun hge hframe h => Nat.not_lt.mpr hge ((addressable_iff.mp h).1 _ hframe)
  have hloaded : ∀ {i}, i < s.mm.numFrames → (addressIn c s (UInt64.ofNat i)).toNat <
      s.mm.numFrames * (s.tables c.pid).pageSize.toNat := by
    intro i hi
    refine addressIn_lt hsize ?_
    rw [toNat_ofNat_of_lt hs.manager hi]
    exact hi
  have hmove := access_moves hs.manager c
  unfold StaysInside
  generalize (s.access c).1 = r, (s.access c).2 = s' at hmove ⊢
  cases hmove with
  | divides zero => exact absurd zero hsize
  | rejects size_pos missed invalid beyond =>
    refine iff_of_true trivial ⟨fun pte hentry hvalid _ => ?_, fun hnone => ?_⟩
    · rw [invalid pte hentry] at hvalid
      cases hvalid
    · exact (le_goInt_iff hlen (List.getElem?_eq_none_iff.mp hnone)).mp (beyond hnone)
  | overruns size_pos missed noEntry past =>
    refine iff_of_false id fun h => past ?_
    exact (le_goInt_iff hlen (List.getElem?_eq_none_iff.mp noEntry)).mpr (h.page_lt noEntry)
  | hits size_pos cached lt =>
    exact iff_of_true (addressIn_lt hsize lt) (addressable_of_translated lt (hs.cached cached))
  | hitsOutside size_pos cached ge => exact iff_of_false id (houtside ge (hs.cached cached))
  | walks walk present lt =>
    exact iff_of_true (addressIn_lt hsize lt)
      (addressable_of_translated lt (walk.translated present))
  | walksOutside walk present ge => exact iff_of_false id (houtside ge (walk.translated present))
  | fills walk absent lt free =>
    exact iff_of_true (hloaded lt) (addressable_of_absent walk.entry_eq absent)
  | evicts walk absent lt full found victim_eq =>
    exact iff_of_true (hloaded lt) (addressable_of_absent walk.entry_eq absent)

/-- The sizes are the same, and so are the translations that lead outside the frame table. -/
structure SameBounds (s s' : PagingSystem) : Prop where
  shape : SameShape s s'
  length_eq : ∀ pid, (s'.tables pid).entries.length = (s.tables pid).entries.length
  outside_iff : ∀ p f, s.mm.numFrames ≤ f →
    (tableFrame s'.tables p = some f ↔ tableFrame s.tables p = some f)

theorem SameBounds.refl (s : PagingSystem) : SameBounds s s :=
  ⟨⟨rfl, fun _ => rfl⟩, fun _ => rfl, fun _ _ _ => Iff.rfl⟩

theorem SameBounds.trans {s'' : PagingSystem} (h : SameBounds s s') (h' : SameBounds s' s'') :
    SameBounds s s'' := by
  refine ⟨⟨h'.shape.numFrames_eq.trans h.shape.numFrames_eq,
    fun pid => (h'.shape.pageSize_eq pid).trans (h.shape.pageSize_eq pid)⟩,
    fun pid => (h'.length_eq pid).trans (h.length_eq pid), fun p f hf => ?_⟩
  have hf' : s'.mm.numFrames ≤ f := h.shape.numFrames_eq.symm ▸ hf
  exact (h'.outside_iff p f hf').trans (h.outside_iff p f hf)

/-- A translation that is made leads into the frame table. -/
theorem sameBounds_of_move (hmm : ManagerOk s.mm) (h : AccessMove c s r s') : SameBounds s s' := by
  refine ⟨h.sameShape, h.field_eq (fun pt => pt.entries.length) fun _ _ _ => List.length_set,
    fun p f hf => ?_⟩
  rcases h.tableFrame_cases hmm with hkept | ⟨i, hi, hnone, -, hmade⟩
  · rw [hkept]
  · by_cases hp : p = accessedPage c s
    · subst hp
      rw [hmade, Function.update_self, hnone, Option.some.injEq]
      exact iff_of_false (by omega) (by simp)
    · rw [hmade, Function.update_of_ne hp]

theorem SameBounds.addressable_iff (h : SameBounds s s') (c : MemoryAccess) :
    Addressable c s' ↔ Addressable c s := by
  have hpage : accessedPage c s' = accessedPage c s := by
    unfold accessedPage
    rw [h.shape.pageSize_eq]
  have hframe : (∀ f, tableFrame s'.tables (accessedPage c s) = some f → f < s.mm.numFrames) ↔
      ∀ f, tableFrame s.tables (accessedPage c s) = some f → f < s.mm.numFrames := by
    refine forall_congr' fun f => ?_
    by_cases hf : f < s.mm.numFrames
    · exact iff_of_true (fun _ => hf) fun _ => hf
    · rw [h.outside_iff _ f (Nat.not_lt.mp hf)]
  rw [Analysis.addressable_iff, Analysis.addressable_iff, hpage, h.shape.numFrames_eq, h.length_eq,
    hframe]

end Frames

theorem sameBounds_run {S : RemapSetup} (calls : List MemoryAccess) :
    SameBounds S.init (S.run calls) := by
  induction calls using List.reverseRecOn with
  | nil => exact .refl _
  | append_singleton calls c ih =>
    rw [run_append]
    have hmm := (consistent_run (S := S) calls).manager
    exact ih.trans (sameBounds_of_move hmm (access_moves hmm c))

/-- **A run stays inside physical memory exactly if all its pages are addressable**: mapped to a
frame below `NumFrames`, or not mapped with a page number below `2 ^ 63`.
SOURCE: pkg/memory/page_replacement.go:65-124, pkg/memory/paging.go:51-61 -/
theorem staysInside_iff (S : RemapSetup) (hbuilt : ∀ pid, Built (S.tables pid))
    (calls : List MemoryAccess) :
    (∀ done c, done ++ [c] <+: calls → StaysInside c (S.run done)) ↔
      ∀ c ∈ calls, Addressable c S.init := by
  have hcall : ∀ done c, StaysInside c (S.run done) ↔ Addressable c S.init := by
    intro done c
    have hbounds := sameBounds_run (S := S) done
    obtain ⟨hsize, hlen⟩ := (hbuilt c.pid).wellFormed
    rw [← hbounds.addressable_iff]
    refine staysInside_iff_addressable (consistent_run done) ?_ ?_
    · rw [hbounds.shape.pageSize_eq]
      exact hsize
    · rw [hbounds.length_eq]
      exact hlen
  constructor
  · intro hinside c hc
    obtain ⟨done, rest, rfl⟩ := List.append_of_mem hc
    exact (hcall done c).mp (hinside done c ⟨rest, by simp⟩)
  · intro haddressable done c hpre
    exact (hcall done c).mpr (haddressable c (hpre.subset (by simp)))

theorem built_readOnly (pid : ℤ) : Built (readOnly.tables pid) :=
  .map (.new pid 1 4096 (by decide)) 0 0 false (readOnlyTable_eq pid)

/-- Page `0` is mapped to the one frame, and page `1` is not mapped. -/
theorem staysInside_readOnly :
    (∀ c ∈ ([⟨1, 0, false⟩, ⟨1, 4096, false⟩] : List MemoryAccess), Addressable c readOnly.init) ∧
      ∀ done c, done ++ [c] <+: [⟨1, 0, false⟩, ⟨1, 4096, false⟩] →
        StaysInside c (readOnly.run done) := by
  have haddressable : ∀ c ∈ ([⟨1, 0, false⟩, ⟨1, 4096, false⟩] : List MemoryAccess),
      Addressable c readOnly.init := by
    intro c hc
    simp only [List.mem_cons, List.not_mem_nil, or_false] at hc
    rcases hc with rfl | rfl
    · exact addressable_of_translated (f := 0) (by decide) (by decide)
    · refine addressable_iff.mpr ⟨fun f hf => ?_, fun _ => by decide⟩
      have hnone : tableFrame readOnly.init.tables (accessedPage ⟨1, 4096, false⟩ readOnly.init) =
          none := by decide
      cases hnone.symm.trans hf
  exact ⟨haddressable, (staysInside_iff readOnly built_readOnly _).mpr haddressable⟩

/-- The table of a process after `Exec`, which maps page `0` to frame `20 * pid`.
SOURCE: pkg/kernel/process_lifecycle.go:150-151 -/
def execTable (pid : ℤ) : PageTable :=
  { newPageTable pid 16 4096 with
    entries := (newPageTable pid 16 4096).entries.set 0 (mappedEntry (UInt64.ofInt (pid * 20)) true) }

/-- The memory manager of the kernel, and a table of this kind for every process.
SOURCE: pkg/kernel/os_kernel.go:41 -/
def kernelMemory : RemapSetup where
  numFrames := 8
  policy := .clock
  tlbCapacity := 8
  tables := execTable
  pid_eq := fun _ => rfl

theorem built_kernelMemory (pid : ℤ) : Built (kernelMemory.tables pid) := by
  have hlt : (0 : UInt64).toNat < (newPageTable pid 16 4096).entries.length := by
    show 0 < 16
    decide
  exact .map (.new pid 16 4096 (by decide)) 0 _ true (mapPage_of_lt hlt _ true)

/-- The init process calls `Exec`, and its first access indexes the frame table out of range. -/
theorem exec_table_outside :
    ((newProcessManager.exec 1 "sh" []).2.processes 1).map (fun proc => proc.pageTable) =
        some (kernelMemory.tables 1) ∧
      (∀ pid, Built (kernelMemory.tables pid)) ∧
      (kernelMemory.init.access ⟨1, 0, false⟩).1 = .panic ∧
      ¬ StaysInside ⟨1, 0, false⟩ kernelMemory.init := by
  have hpanic : (kernelMemory.init.access ⟨1, 0, false⟩).1 = .panic := by decide
  refine ⟨rfl, built_kernelMemory, hpanic, ?_⟩
  unfold StaysInside
  rw [hpanic]
  exact id

/-! ## Page numbers -/

/-- A page number is compared with the number of pages before the table is indexed: `MapPage`
ignores it if it is too large, and the two translations return `ErrInvalidPage`. -/
structure BoundsChecked (pt : PageTable) (vpn : UInt64) : Prop where
  mapPage : ∀ pfn writable, pt.mapPage vpn pfn writable ≠ none ∧
    (pt.entries.length ≤ vpn.toNat → pt.mapPage vpn pfn writable = some pt)
  translate : ∀ vAddr isWrite, vAddr / pt.pageSize = vpn →
    pt.translate vAddr isWrite ≠ none ∧
      (pt.entries.length ≤ vpn.toNat →
        ∃ t, pt.translate vAddr isWrite = some (t, pt) ∧ outcome t = .fault .invalidPage)
  access : ∀ (mm : MemoryManager) vAddr isWrite, vAddr / pt.pageSize = vpn →
    (mm.tlb.lookup pt.pid vpn).1 = none → pt.entries.length ≤ vpn.toNat →
      (mm.accessMemory pt vAddr isWrite).1 = notMapped vpn

/-- **The check of the page number is right exactly below `2 ^ 63`.**
SOURCE: pkg/memory/paging.go:51-93, pkg/memory/page_replacement.go:83-88 -/
theorem boundsChecked_iff (pt : PageTable) (hbuilt : Built pt) (vpn : UInt64) :
    BoundsChecked pt vpn ↔ vpn.toNat < 2 ^ 63 := by
  obtain ⟨hsize, hlen⟩ := hbuilt.wellFormed
  constructor
  · intro h
    by_contra hge
    have hout : pt.entries.length ≤ vpn.toNat := by omega
    have hpanic := mapPage_of_ge hlen hout 0 false
    rw [if_neg hge] at hpanic
    exact (h.mapPage 0 false).1 hpanic
  · intro hlt
    refine ⟨fun pfn writable => ?_, ?_, ?_⟩
    · by_cases hin : vpn.toNat < pt.entries.length
      · rw [mapPage_of_lt hin]
        exact ⟨Option.some_ne_none _, fun hge => absurd hin (Nat.not_lt.mpr hge)⟩
      · have hignored := mapPage_of_ge hlen (Nat.not_lt.mp hin) pfn writable
        rw [if_pos hlt] at hignored
        exact ⟨hignored ▸ Option.some_ne_none _, fun _ => hignored⟩
    · rintro vAddr isWrite rfl
      by_cases hin : (vAddr / pt.pageSize).toNat < pt.entries.length
      · obtain ⟨t, ht, -⟩ := translate_of_entry hsize (List.getElem?_eq_getElem hin) isWrite
        exact ⟨ht ▸ Option.some_ne_none _, fun hge => absurd hin (Nat.not_lt.mpr hge)⟩
      · have hint := (le_goInt_iff hlen (Nat.not_lt.mp hin)).mpr hlt
        obtain ⟨t, ht, hout⟩ := translate_of_ge hsize hint isWrite
        exact ⟨ht ▸ Option.some_ne_none _, fun _ => ⟨t, ht, hout⟩⟩
    · rintro mm vAddr isWrite rfl hmiss hge
      rw [accessMemory_of_miss hsize hmiss, walk_of_none (List.getElem?_eq_none hge),
        if_pos ((le_goInt_iff hlen hge).mpr hlt)]

theorem boundsChecked_readOnly : BoundsChecked (readOnly.tables 1) 1 :=
  (boundsChecked_iff (readOnly.tables 1) (built_readOnly 1) 1).mpr (by decide)

/-- Page `2 ^ 63` passes the check of all three functions, and all three panic. -/
theorem unchecked_pageNumber :
    (newPageTable 1 16 1).mapPage 0x8000000000000000 0 true = none ∧
      (newPageTable 1 16 1).translate 0x8000000000000000 false = none ∧
      ((newMemoryManager 8 .clock 8).accessMemory (newPageTable 1 16 1) 0x8000000000000000 false).1 =
        .panic ∧
      ¬ BoundsChecked (newPageTable 1 16 1) 0x8000000000000000 := by
  have hmap : (newPageTable 1 16 1).mapPage 0x8000000000000000 0 true = none :=
    Option.isNone_iff_eq_none.mp (by decide)
  exact ⟨hmap, Option.isNone_iff_eq_none.mp (by decide), by decide,
    fun h => (h.mapPage 0 true).1 hmap⟩

end OsSimulator.Analysis
