import OsSimulator.Model.SharedMemory
import OsSimulator.Interface.PageTableView
import OsSimulator.Library.EventRun
import Mathlib.Tactic.Ring

/-!
# What attached processes see

`Attach` maps one page of the process to the frame of the segment, whatever the size of the segment
is, and does not learn whether the page was in the table at all.  So two processes see the same
memory where the segment fits into a page, the pages are in the tables, and both tables have the
same page size (`attached_share`); each of the three can fail although `Attach` has returned no
error (`attach_without_mapping`).
-/

set_option autoImplicit false

namespace OsSimulator.Analysis

open Model Interface Library

section SharedMemory

variable {P : Type}

/-! ## The specification -/

/-- The address that `Translate` returns, if it succeeds. -/
def physicalAddress (pt : PageTable) (vAddr : UInt64) (isWrite : Bool) : Option UInt64 :=
  (pt.translate vAddr isWrite).bind fun r =>
    match r.1.err with
    | none => some r.1.pAddr
    | some _ => none

/-- The operation maps page `vpn` of table `p`, whose pages have the given size. -/
def Maps (pageSize : UInt64) (p : P) (vpn : UInt64) : ShmOp P → Prop
  | .attach _ _ vAddr q => q = p ∧ vAddr / pageSize = vpn
  | .mapPage q vpn' _ _ => q = p ∧ vpn' = vpn
  | _ => False

/-- Some `Attach` of the segment has returned without error, and its page was not mapped since. -/
def AttachedAt [DecidableEq P] (tables : P → PageTable) (ops : List (ShmOp P)) (shmID : ℤ)
    (vAddr : UInt64) (p : P) : Prop :=
  ∃ before after pid s s', ops = before ++ .attach shmID pid vAddr p :: after ∧
    runShm tables before = some s ∧ s.attach shmID pid vAddr p = some (none, s') ∧
    ∀ op ∈ after, ¬ Maps (tables p).pageSize p (vAddr / (tables p).pageSize) op

/-- A segment of `size` bytes fits into the page at `vAddr`, and the page is in the table. -/
structure FitsPage (pt : PageTable) (pageSize : UInt64) (size : ℤ) (vAddr : UInt64) : Prop where
  page_size : pt.pageSize = pageSize
  aligned : vAddr % pageSize = 0
  in_range : (vAddr / pageSize).toNat < pt.entries.length
  size_le : size ≤ pageSize.toNat
  no_wrap : vAddr.toNat + size ≤ UInt64.size

/-! ## Page tables -/

/-- Page `vpn` is mapped to the frame, for reading and writing. -/
def MappedTo (pt : PageTable) (vpn pfn : UInt64) : Prop :=
  ∃ e, pt.entries[vpn.toNat]? = some e ∧ e.valid = true ∧ e.present = true ∧
    e.readWrite = true ∧ e.pfn = pfn

/-- The two tables differ in their entries at most. -/
structure SameLayout (pt pt' : PageTable) : Prop where
  page_size : pt'.pageSize = pt.pageSize
  length_eq : pt'.entries.length = pt.entries.length

theorem SameLayout.refl (pt : PageTable) : SameLayout pt pt := ⟨rfl, rfl⟩

theorem SameLayout.trans {pt pt' pt'' : PageTable} (h : SameLayout pt pt')
    (h' : SameLayout pt' pt'') : SameLayout pt pt'' :=
  ⟨h'.page_size.trans h.page_size, h'.length_eq.trans h.length_eq⟩

variable {pt pt' : PageTable} {vpn vpn' pfn pfn' vAddr : UInt64} {writable isWrite : Bool}

theorem mapPage_shape (h : pt.mapPage vpn pfn writable = some pt') : SameLayout pt pt' := by
  unfold PageTable.mapPage at h
  split at h
  · split at h
    · cases h
      exact ⟨rfl, List.length_set⟩
    · cases h
  · cases h
    exact .refl pt

/-- `MapPage` leaves the other pages alone. -/
theorem mapPage_other (h : pt.mapPage vpn' pfn' writable = some pt') (hne : vpn' ≠ vpn)
    (hmapped : MappedTo pt vpn pfn) : MappedTo pt' vpn pfn := by
  unfold PageTable.mapPage at h
  split at h
  · split at h
    · cases h
      obtain ⟨e, he, hrest⟩ := hmapped
      have hindex : vpn'.toNat ≠ vpn.toNat := fun heq => hne (UInt64.toNat_inj.mp heq)
      exact ⟨e, by simp only [List.getElem?_set_ne hindex, he], hrest⟩
    · cases h
  · cases h
    exact hmapped

theorem mapPage_mapped (h : pt.mapPage vpn pfn true = some pt')
    (hrange : vpn.toNat < pt.entries.length) : MappedTo pt' vpn pfn := by
  rw [mapPage_of_lt hrange] at h
  cases h
  exact ⟨mappedEntry pfn true, List.getElem?_set_self hrange, rfl, rfl, rfl, rfl⟩

variable {seg : SharedMemorySegment} {r : Translation}

theorem translate_shape (h : pt.translate vAddr isWrite = some (r, pt')) : SameLayout pt pt' := by
  rcases translate_cases h with rfl | ⟨i, e, -, rfl⟩
  · exact .refl pt'
  · exact ⟨rfl, List.length_set⟩

/-- `Translate` maps no page. -/
theorem translate_mapped (h : pt.translate vAddr isWrite = some (r, pt'))
    (hmapped : MappedTo pt vpn pfn) : MappedTo pt' vpn pfn := by
  rcases translate_cases h with rfl | ⟨i, e, he, rfl⟩
  · exact hmapped
  · obtain ⟨e', he', hrest⟩ := hmapped
    by_cases hi : i = vpn.toNat
    · subst hi
      obtain rfl : e = e' := Option.some.inj (he.symm.trans he')
      exact ⟨e.track isWrite, List.getElem?_set_self (List.getElem?_eq_some_iff.mp he).1, hrest⟩
    · exact ⟨e', by simp only [List.getElem?_set_ne hi, he'], hrest⟩

/-- The address of an offset in an aligned page. -/
theorem aligned_page {v k pageSize : UInt64} (haligned : v % pageSize = 0) (hk : k < pageSize)
    (hwrap : v.toNat + k.toNat < UInt64.size) :
    (v + k) / pageSize = v / pageSize ∧ (v + k) % pageSize = k := by
  have hadd : (v + k).toNat = v.toNat + k.toNat := by
    rw [UInt64.toNat_add, Nat.mod_eq_of_lt hwrap]
  have hdvd : pageSize.toNat ∣ v.toNat := by
    rw [← UInt64.toNat_inj, UInt64.toNat_mod] at haligned
    exact Nat.dvd_of_mod_eq_zero haligned
  have hlt : k.toNat < pageSize.toNat := UInt64.lt_iff_toNat_lt.mp hk
  obtain ⟨q, hq⟩ := hdvd
  constructor
  · rw [← UInt64.toNat_inj, UInt64.toNat_div, UInt64.toNat_div, hadd, hq,
      Nat.mul_add_div (by omega), Nat.div_eq_of_lt hlt, Nat.mul_div_cancel_left _ (by omega)]
    rfl
  · rw [← UInt64.toNat_inj, UInt64.toNat_mod, hadd, hq, Nat.mul_add_mod, Nat.mod_eq_of_lt hlt]

theorem physicalAddress_of_outcome {a : UInt64} (h : pt.translate vAddr isWrite = some (r, pt'))
    (hr : outcome r = .address a) : physicalAddress pt vAddr isWrite = some a := by
  unfold outcome at hr
  unfold physicalAddress
  rw [h, Option.bind_some]
  cases herr : r.err with
  | none =>
    rw [herr] at hr
    exact congrArg some (TranslateOutcome.address.inj hr)
  | some e =>
    rw [herr] at hr
    cases hr

/-- An offset in a mapped page translates to the same offset in its frame. -/
theorem physicalAddress_of_mapped {k : UInt64} {size : ℤ} {pageSize : UInt64}
    (hpage : pt.pageSize ≠ 0) (hfits : FitsPage pt pageSize size vAddr)
    (hmapped : MappedTo pt (vAddr / pageSize) pfn) (hk : (k.toNat : ℤ) < size) :
    physicalAddress pt (vAddr + k) isWrite = some (pfn * pageSize + k) := by
  obtain rfl := hfits.page_size
  have hsize := hfits.size_le
  have hnowrap := hfits.no_wrap
  have hlt : k < pt.pageSize := UInt64.lt_iff_toNat_lt.mpr (by omega)
  obtain ⟨hdiv, hmod⟩ := aligned_page hfits.aligned hlt (by omega)
  obtain ⟨e, he, hvalid, hpresent, hwrite, rfl⟩ := hmapped
  have hcheck : checkEntry isWrite e = none := by simp [checkEntry, hvalid, hpresent, hwrite]
  have he' : pt.entries[((vAddr + k) / pt.pageSize).toNat]? = some e := by rw [hdiv, he]
  obtain ⟨r, htranslate, hr⟩ := translate_of_ok hpage he' hcheck
  rw [hmod] at hr
  exact physicalAddress_of_outcome htranslate hr

/-! ## The operations -/

variable [DecidableEq P] {s s' : ShmSystem P} {op : ShmOp P} {p : P} {shmID pid : ℤ}

/-- The segments are the same, with the next number. -/
def SameSegments (s s' : ShmSystem P) : Prop :=
  s'.manager.segments = s.manager.segments ∧ s'.manager.nextShmID = s.manager.nextShmID

/-- What an operation can do. -/
inductive ShmMove (op : ShmOp P) (s s' : ShmSystem P) : Prop where
  | creates {seg : SharedMemorySegment}
      (pfn_eq : seg.physicalPFN = UInt64.ofInt (500 + s.manager.nextShmID))
      (segments_eq : s'.manager.segments =
        Function.update s.manager.segments s.manager.nextShmID (some seg))
      (next_eq : s'.manager.nextShmID = s.manager.nextShmID + 1) (tables_eq : s'.tables = s.tables)
  | maps {p : P} {pt : PageTable} {vpn pfn : UInt64} {writable : Bool}
      (maps : Maps (s.tables p).pageSize p vpn op)
      (map_eq : (s.tables p).mapPage vpn pfn writable = some pt)
      (tables_eq : s'.tables = Function.update s.tables p pt) (segments : SameSegments s s')
  | translates {p : P} {pt : PageTable} {vAddr : UInt64} {isWrite : Bool} {r : Translation}
      (translate_eq : (s.tables p).translate vAddr isWrite = some (r, pt))
      (tables_eq : s'.tables = Function.update s.tables p pt) (segments : SameSegments s s')
  | fails (eq : s' = s)

/-- `Attach` fails without a change, or maps the page of the address to the frame. -/
theorem attach_cases {r : Option String} (h : s.attach shmID pid vAddr p = some (r, s')) :
    (r = some (errInvalidShmid shmID) ∧ s.manager.segments shmID = none ∧ s' = s) ∨
      ∃ seg pt, r = none ∧ s.manager.segments shmID = some seg ∧ (s.tables p).pageSize ≠ 0 ∧
        (s.tables p).mapPage (vAddr / (s.tables p).pageSize) seg.physicalPFN true = some pt ∧
        s'.tables = Function.update s.tables p pt ∧ SameSegments s s' := by
  unfold ShmSystem.attach at h
  cases hseg : s.manager.segments shmID with
  | none =>
    rw [hseg] at h
    cases h
    exact .inl ⟨rfl, rfl, rfl⟩
  | some seg =>
    simp only [hseg] at h
    split at h
    · cases h
    · rename_i hsize
      obtain ⟨pt, hpt, heq⟩ := Option.bind_eq_some_iff.mp h
      cases heq
      exact .inr ⟨seg, pt, rfl, rfl, hsize, hpt, rfl, rfl, rfl⟩

omit [DecidableEq P] in
theorem createSegment_eq {smm smm' : SharedMemoryManager P} {size : ℤ}
    (h : smm.createSegment size = some (seg, smm')) :
    seg.sizeBytes = size ∧ seg.physicalPFN = UInt64.ofInt (500 + smm.nextShmID) ∧
      smm'.segments = Function.update smm.segments smm.nextShmID (some seg) ∧
      smm'.nextShmID = smm.nextShmID + 1 := by
  unfold SharedMemoryManager.createSegment at h
  simp only at h
  split at h
  · cases h
  · cases h
    exact ⟨rfl, rfl, rfl, rfl⟩

theorem shmStep_moves (h : s.step op = some s') : ShmMove op s s' := by
  cases op with
  | create sizeBytes =>
    obtain ⟨⟨seg, manager⟩, hcreate, heq⟩ := Option.bind_eq_some_iff.mp h
    cases heq
    obtain ⟨-, hpfn, hsegments, hnext⟩ := createSegment_eq hcreate
    exact .creates hpfn hsegments hnext rfl
  | attach shmID pid vAddr p =>
    obtain ⟨⟨r, s''⟩, hattach, heq⟩ := Option.bind_eq_some_iff.mp h
    cases heq
    rcases attach_cases hattach with ⟨-, -, heq⟩ | ⟨seg, pt, -, -, -, hmap, htables, hsegments⟩
    · exact .fails heq
    · exact .maps ⟨rfl, rfl⟩ hmap htables hsegments
  | mapPage p vpn pfn writable =>
    unfold ShmSystem.step at h
    obtain ⟨pt, hmap, heq⟩ := Option.bind_eq_some_iff.mp h
    cases heq
    exact .maps ⟨rfl, rfl⟩ hmap rfl ⟨rfl, rfl⟩
  | translate p vAddr isWrite =>
    obtain ⟨⟨r, pt⟩, htranslate, heq⟩ := Option.bind_eq_some_iff.mp h
    cases heq
    exact .translates htranslate rfl ⟨rfl, rfl⟩

/-- The tables keep their shape. -/
theorem ShmMove.shape (h : ShmMove op s s') (p : P) : SameLayout (s.tables p) (s'.tables p) := by
  cases h with
  | creates _ _ _ htables => rw [htables]; exact .refl _
  | @maps q pt _ _ _ _ hmap htables _ =>
    rw [htables]
    by_cases hp : p = q
    · rw [hp, Function.update_self]
      exact mapPage_shape hmap
    · rw [Function.update_of_ne hp]
      exact .refl _
  | @translates q pt _ _ _ htranslate htables _ =>
    rw [htables]
    by_cases hp : p = q
    · rw [hp, Function.update_self]
      exact translate_shape htranslate
    · rw [Function.update_of_ne hp]
      exact .refl _
  | fails heq => rw [heq]; exact .refl _

/-- An operation that does not map the page leaves it mapped as it is. -/
theorem ShmMove.mapped (h : ShmMove op s s') (hnot : ¬ Maps (s.tables p).pageSize p vpn op)
    (hmapped : MappedTo (s.tables p) vpn pfn) : MappedTo (s'.tables p) vpn pfn := by
  cases h with
  | creates _ _ _ htables => rwa [htables]
  | @maps q pt vpn' _ _ hmaps hmap htables _ =>
    rw [htables]
    by_cases hp : p = q
    · subst hp
      rw [Function.update_self]
      refine mapPage_other hmap ?_ hmapped
      rintro rfl
      exact hnot hmaps
    · rwa [Function.update_of_ne hp]
  | @translates q pt _ _ _ htranslate htables _ =>
    rw [htables]
    by_cases hp : p = q
    · subst hp
      rw [Function.update_self]
      exact translate_mapped htranslate hmapped
    · rwa [Function.update_of_ne hp]
  | fails heq => rwa [heq]

/-- The segments have the numbers below the next one, and the frames that belong to them. -/
def SegmentsOk (s : ShmSystem P) : Prop :=
  1 ≤ s.manager.nextShmID ∧ ∀ shmID seg, s.manager.segments shmID = some seg →
    1 ≤ shmID ∧ shmID < s.manager.nextShmID ∧ seg.physicalPFN = UInt64.ofInt (500 + shmID)

theorem ShmMove.segmentsOk (h : ShmMove op s s') (hs : SegmentsOk s) : SegmentsOk s' := by
  have hsame : SameSegments s s' → SegmentsOk s' := by
    rintro ⟨hsegments, hnext⟩
    unfold SegmentsOk
    rw [hsegments, hnext]
    exact hs
  cases h with
  | @creates seg hpfn hsegments hnext _ =>
    obtain ⟨hpos, hok⟩ := hs
    refine ⟨by omega, fun shmID seg' hseg' => ?_⟩
    rw [hsegments] at hseg'
    by_cases hid : shmID = s.manager.nextShmID
    · subst hid
      rw [Function.update_self] at hseg'
      cases hseg'
      exact ⟨hpos, by omega, hpfn⟩
    · rw [Function.update_of_ne hid] at hseg'
      obtain ⟨hone, hlt, heq⟩ := hok shmID seg' hseg'
      exact ⟨hone, by omega, heq⟩
  | maps _ _ _ hsegments => exact hsame hsegments
  | translates _ _ hsegments => exact hsame hsegments
  | fails heq => rwa [heq]

/-- A segment stays. -/
theorem ShmMove.segment (h : ShmMove op s s') (hs : SegmentsOk s)
    (hseg : s.manager.segments shmID = some seg) : s'.manager.segments shmID = some seg := by
  cases h with
  | creates _ hsegments _ _ =>
    have hid : shmID ≠ s.manager.nextShmID := by
      have := (hs.2 shmID seg hseg).2.1
      omega
    rwa [hsegments, Function.update_of_ne hid]
  | maps _ _ _ hsegments => exact (congrFun hsegments.1 shmID).trans hseg
  | translates _ _ hsegments => exact (congrFun hsegments.1 shmID).trans hseg
  | fails heq => rw [heq, hseg]

/-! ## Whole histories -/

variable {tables : P → PageTable} {ops : List (ShmOp P)}

theorem runShm_concat (h : runShm tables (ops ++ [op]) = some s') :
    ∃ s, runShm tables ops = some s ∧ s.step op = some s' := by
  unfold runShm at h
  rw [List.foldlM_append] at h
  obtain ⟨s, hs, hrest⟩ := Option.bind_eq_some_iff.mp h
  rw [List.foldlM_cons] at hrest
  obtain ⟨s'', hs'', hnil⟩ := Option.bind_eq_some_iff.mp hrest
  cases hnil
  exact ⟨s, hs, hs''⟩

theorem shape_run (hrun : ops.foldlM ShmSystem.step s = some s') (p : P) :
    SameLayout (s.tables p) (s'.tables p) :=
  foldlM_induction (P := fun r => SameLayout (s.tables p) (r.tables p)) hrun (.refl _)
    fun _ _ _ _ hstep h => h.trans ((shmStep_moves hstep).shape p)

theorem segmentsOk_run (hrun : runShm tables ops = some s) : SegmentsOk s :=
  foldlM_induction hrun ⟨le_rfl, fun _ _ hseg => by cases hseg⟩
    fun _ _ _ _ hstep h => (shmStep_moves hstep).segmentsOk h

/-- A page that is not mapped again stays mapped, and a segment stays. -/
theorem mapped_run {pageSize : UInt64} (hrun : ops.foldlM ShmSystem.step s = some s')
    (hok : SegmentsOk s) (hsize : (s.tables p).pageSize = pageSize)
    (hseg : s.manager.segments shmID = some seg) (hmapped : MappedTo (s.tables p) vpn pfn)
    (hnot : ∀ op ∈ ops, ¬ Maps pageSize p vpn op) :
    s'.manager.segments shmID = some seg ∧ MappedTo (s'.tables p) vpn pfn := by
  have hall := foldlM_induction (P := fun r : ShmSystem P => SegmentsOk r ∧
      (r.tables p).pageSize = pageSize ∧ r.manager.segments shmID = some seg ∧
      MappedTo (r.tables p) vpn pfn) hrun ⟨hok, hsize, hseg, hmapped⟩ ?_
  · exact hall.2.2
  · rintro op hop r r' hstep ⟨hok, hsize, hseg, hmapped⟩
    have hmove := shmStep_moves hstep
    exact ⟨hmove.segmentsOk hok, (hmove.shape p).page_size.trans hsize, hmove.segment hok hseg,
      hmove.mapped (hsize ▸ hnot op hop) hmapped⟩

/-- The page of an `Attach` that was not mapped since is mapped to the frame of the segment. -/
theorem AttachedAt.mapped (hrun : runShm tables ops = some s)
    (hat : AttachedAt tables ops shmID vAddr p)
    (hrange : (vAddr / (tables p).pageSize).toNat < (tables p).entries.length) :
    (s.tables p).pageSize ≠ 0 ∧
      MappedTo (s.tables p) (vAddr / (tables p).pageSize) (UInt64.ofInt (500 + shmID)) := by
  obtain ⟨before, after, pid, mid, mid', rfl, hbefore, hattach, hnot⟩ := hat
  have hshape := shape_run hbefore p
  obtain ⟨seg, pt, hseg, hsize, hmap, htables, hsegments⟩ : ∃ seg pt,
      mid.manager.segments shmID = some seg ∧ (mid.tables p).pageSize ≠ 0 ∧
      (mid.tables p).mapPage (vAddr / (mid.tables p).pageSize) seg.physicalPFN true = some pt ∧
      mid'.tables = Function.update mid.tables p pt ∧ SameSegments mid mid' := by
    rcases attach_cases hattach with ⟨hnone, -⟩ | ⟨seg, pt, -, hrest⟩
    · cases hnone
    · exact ⟨seg, pt, hrest⟩
  have hstep : mid.step (.attach shmID pid vAddr p) = some mid' := by
    simp only [ShmSystem.step, hattach]
    rfl
  have hafter : after.foldlM ShmSystem.step mid' = some s := by
    unfold runShm at hrun hbefore
    rw [List.foldlM_append, hbefore] at hrun
    have hrest : (ShmOp.attach shmID pid vAddr p :: after).foldlM ShmSystem.step mid = some s :=
      hrun
    rw [List.foldlM_cons, hstep] at hrest
    exact hrest
  have hok := segmentsOk_run hbefore
  have hpfn := (hok.2 shmID seg hseg).2.2
  rw [hshape.page_size, hpfn] at hmap
  have hmapped : MappedTo (mid'.tables p) (vAddr / (tables p).pageSize)
      (UInt64.ofInt (500 + shmID)) := by
    rw [htables, Function.update_self]
    exact mapPage_mapped hmap (by rw [hshape.length_eq]; exact hrange)
  have hmove := shmStep_moves hstep
  have hsize' : (mid'.tables p).pageSize = (tables p).pageSize :=
    (hmove.shape p).page_size.trans hshape.page_size
  refine ⟨?_, (mapped_run hafter (hmove.segmentsOk hok) hsize' (hmove.segment hok hseg) hmapped
    hnot).2⟩
  rw [(shape_run hafter p).page_size, hsize', ← hshape.page_size]
  exact hsize

/-! ## Frames -/

theorem toNat_ofInt (i : ℤ) : ((UInt64.ofInt i).toNat : ℤ) = i % UInt64.size := by
  have hpos := Int.emod_nonneg i (show (UInt64.size : ℤ) ≠ 0 by decide)
  have hlt := Int.emod_lt_of_pos i (show (0 : ℤ) < UInt64.size by decide)
  have hnat : (UInt64.ofInt i).toNat = (i % UInt64.size).toNat :=
    UInt64.toNat_ofNat_of_lt' ((Int.toNat_lt hpos).mpr hlt)
  rw [hnat, Int.toNat_of_nonneg hpos]

theorem toNat_frame (i : ℤ) (pageSize k : UInt64) :
    ((UInt64.ofInt (500 + i) * pageSize + k).toNat : ℤ) =
      ((500 + i) * pageSize.toNat + k.toNat) % UInt64.size := by
  have hsize : ((2 ^ 64 : ℕ) : ℤ) = UInt64.size := rfl
  rw [UInt64.toNat_add, UInt64.toNat_mul, Int.natCast_emod, Int.natCast_add, Int.natCast_emod,
    Int.natCast_mul, toNat_ofInt, hsize, Int.emod_add_emod, Int.add_emod, Int.mul_emod,
    Int.emod_emod, ← Int.mul_emod, ← Int.add_emod]

/-- The pages of different frames do not meet, as long as they do not wrap around. -/
theorem frames_apart {i j pageSize k l size : ℤ} (hij : i < j)
    (hbound : (j - i + 1) * pageSize ≤ size) (hk : 0 ≤ k ∧ k < pageSize)
    (hl : 0 ≤ l ∧ l < pageSize) :
    ((500 + j) * pageSize + l) % size ≠ ((500 + i) * pageSize + k) % size := by
  intro heq
  have hdvd : size ∣ (j - i) * pageSize + (l - k) := by
    have hsub := Int.emod_eq_emod_iff_emod_sub_eq_zero.mp heq
    have hdiff : (500 + j) * pageSize + l - ((500 + i) * pageSize + k) =
        (j - i) * pageSize + (l - k) := by ring
    rw [hdiff] at hsub
    exact Int.dvd_of_emod_eq_zero hsub
  have hone : pageSize ≤ (j - i) * pageSize := by
    have hmul := Int.mul_le_mul_of_nonneg_right (show 1 ≤ j - i by omega)
      (show 0 ≤ pageSize by omega)
    rwa [Int.one_mul] at hmul
  have hexpand : (j - i + 1) * pageSize = (j - i) * pageSize + pageSize := by ring
  have hle := Int.le_of_dvd (by omega) hdvd
  omega

/-! ## Attached processes -/

/-- The process of table `p` sees the segment at `vAddr`: it was attached there, and it fits. -/
structure SeesSegment (tables : P → PageTable) (ops : List (ShmOp P)) (s : ShmSystem P)
    (pageSize : UInt64) (shmID size : ℤ) (vAddr : UInt64) (p : P) : Prop where
  segment : ∃ seg, s.manager.segments shmID = some seg ∧ seg.sizeBytes = size
  attached : AttachedAt tables ops shmID vAddr p
  fits : FitsPage (tables p) pageSize size vAddr

variable {pageSize : UInt64} {size : ℤ}

theorem SeesSegment.physical (hrun : runShm tables ops = some s)
    (h : SeesSegment tables ops s pageSize shmID size vAddr p) {k : UInt64}
    (hk : (k.toNat : ℤ) < size) (isWrite : Bool) :
    physicalAddress (s.tables p) (vAddr + k) isWrite =
      some (UInt64.ofInt (500 + shmID) * pageSize + k) := by
  have hshape := shape_run hrun p
  have hfits := h.fits
  have hrange := hfits.in_range
  rw [← hfits.page_size] at hrange
  obtain ⟨hpage, hmapped⟩ := h.attached.mapped hrun hrange
  rw [hfits.page_size] at hmapped
  refine physicalAddress_of_mapped hpage ⟨hshape.page_size.trans hfits.page_size, hfits.aligned, ?_,
    hfits.size_le, hfits.no_wrap⟩ hmapped hk
  rw [hshape.length_eq]
  exact hfits.in_range

/-- **Attached processes see the same memory**, where segments fit into a page, pages are in the
tables and the tables have one page size; and then different segments share no address as long as
the frames of all segments together fit into the physical addresses.
SOURCE: pkg/ipc/shared_memory.go:46-87, pkg/memory/paging.go:51-93 -/
theorem attached_share (tables : P → PageTable) (ops : List (ShmOp P)) (s : ShmSystem P)
    (hrun : runShm tables ops = some s) (pageSize : UInt64) :
    (∀ shmID size v₁ p₁ v₂ p₂, SeesSegment tables ops s pageSize shmID size v₁ p₁ →
      SeesSegment tables ops s pageSize shmID size v₂ p₂ →
      ∀ (k : UInt64) w, (k.toNat : ℤ) < size → ∃ a,
        physicalAddress (s.tables p₁) (v₁ + k) w = some a ∧
        physicalAddress (s.tables p₂) (v₂ + k) w = some a) ∧
    ((s.manager.nextShmID - 1) * pageSize.toNat ≤ UInt64.size →
      ∀ shmID₁ size₁ v₁ p₁ shmID₂ size₂ v₂ p₂, shmID₁ ≠ shmID₂ →
      SeesSegment tables ops s pageSize shmID₁ size₁ v₁ p₁ →
      SeesSegment tables ops s pageSize shmID₂ size₂ v₂ p₂ →
      ∀ (k₁ k₂ : UInt64) w₁ w₂, (k₁.toNat : ℤ) < size₁ → (k₂.toNat : ℤ) < size₂ →
        physicalAddress (s.tables p₁) (v₁ + k₁) w₁ ≠
          physicalAddress (s.tables p₂) (v₂ + k₂) w₂) := by
  constructor
  · intro shmID size v₁ p₁ v₂ p₂ h₁ h₂ k w hk
    exact ⟨_, h₁.physical hrun hk w, h₂.physical hrun hk w⟩
  · intro hfit shmID₁ size₁ v₁ p₁ shmID₂ size₂ v₂ p₂ hne h₁ h₂ k₁ k₂ w₁ w₂ hk₁ hk₂ heq
    rw [h₁.physical hrun hk₁ w₁, h₂.physical hrun hk₂ w₂, Option.some.injEq] at heq
    have hnum := congrArg (fun a : UInt64 => (a.toNat : ℤ)) heq
    simp only [toNat_frame] at hnum
    obtain ⟨seg₁, hseg₁, -⟩ := h₁.segment
    obtain ⟨seg₂, hseg₂, -⟩ := h₂.segment
    obtain ⟨-, hok⟩ := segmentsOk_run hrun
    obtain ⟨hone₁, hlt₁, -⟩ := hok _ _ hseg₁
    obtain ⟨hone₂, hlt₂, -⟩ := hok _ _ hseg₂
    have hsize₁ := h₁.fits.size_le
    have hsize₂ := h₂.fits.size_le
    have hbound : ∀ i j : ℤ, 1 ≤ i → j < s.manager.nextShmID →
        (j - i + 1) * pageSize.toNat ≤ UInt64.size := fun i j hi hj =>
      Int.le_trans (Int.mul_le_mul_of_nonneg_right (by omega) (Int.natCast_nonneg _)) hfit
    rcases Int.lt_or_gt_of_ne hne with hlt | hgt
    · exact frames_apart hlt (hbound _ _ hone₁ hlt₂) ⟨Int.natCast_nonneg _, by omega⟩
        ⟨Int.natCast_nonneg _, by omega⟩ hnum.symm
    · exact frames_apart hgt (hbound _ _ hone₂ hlt₁) ⟨Int.natCast_nonneg _, by omega⟩
        ⟨Int.natCast_nonneg _, by omega⟩ hnum

/-! ## Where it fails -/

/-- Two processes that have attached a segment see the same memory. -/
def SeenAlike (tables : P → PageTable) (ops : List (ShmOp P)) (s : ShmSystem P) : Prop :=
  ∀ shmID seg v₁ p₁ v₂ p₂, s.manager.segments shmID = some seg → 1 ≤ seg.sizeBytes →
    AttachedAt tables ops shmID v₁ p₁ → AttachedAt tables ops shmID v₂ p₂ →
    v₁ % (tables p₁).pageSize = 0 → v₂ % (tables p₂).pageSize = 0 →
    ∀ (k : UInt64) w, (k.toNat : ℤ) < seg.sizeBytes → ∃ a,
      physicalAddress (s.tables p₁) (v₁ + k) w = some a ∧
      physicalAddress (s.tables p₂) (v₂ + k) w = some a

/-- A segment is created and attached to two tables. -/
def createAttachTwice (size : ℤ) (v₁ v₂ : UInt64) (p₁ p₂ : P) : List (ShmOp P) :=
  [.create size, .attach 1 7 v₁ p₁, .attach 1 8 v₂ p₂]

theorem attachedAt_of_run {before after : List (ShmOp P)} {mid mid' : ShmSystem P}
    (hbefore : runShm tables before = some mid) (hseg : mid.manager.segments shmID ≠ none)
    (hstep : mid.step (.attach shmID pid vAddr p) = some mid')
    (hnot : ∀ op ∈ after, ¬ Maps (tables p).pageSize p (vAddr / (tables p).pageSize) op) :
    AttachedAt tables (before ++ .attach shmID pid vAddr p :: after) shmID vAddr p := by
  obtain ⟨⟨r, mid''⟩, hattach, heq⟩ := Option.bind_eq_some_iff.mp hstep
  cases heq
  refine ⟨before, after, pid, mid, mid', rfl, hbefore, ?_, hnot⟩
  rcases attach_cases hattach with ⟨-, hnone, -⟩ | ⟨seg, pt, rfl, -⟩
  · exact absurd hnone hseg
  · exact hattach

/-- Both attachments are in place at the end. -/
theorem attached_twice {v₁ v₂ : UInt64} {p₁ p₂ : P} (hne : p₂ ≠ p₁)
    (hrun : runShm tables (createAttachTwice size v₁ v₂ p₁ p₂) = some s) :
    (∃ seg, s.manager.segments 1 = some seg ∧ seg.sizeBytes = size) ∧
      AttachedAt tables (createAttachTwice size v₁ v₂ p₁ p₂) 1 v₁ p₁ ∧
      AttachedAt tables (createAttachTwice size v₁ v₂ p₁ p₂) 1 v₂ p₂ := by
  have hlast : runShm tables ([.create size, .attach 1 7 v₁ p₁] ++ [.attach 1 8 v₂ p₂]) = some s :=
    hrun
  obtain ⟨s₂, hrun₂, h₃⟩ := runShm_concat hlast
  have hfirst : runShm tables ([.create size] ++ [.attach 1 7 v₁ p₁]) = some s₂ := hrun₂
  obtain ⟨s₁, hrun₁, h₂⟩ := runShm_concat hfirst
  have hcreate : runShm tables ([] ++ [.create size]) = some s₁ := hrun₁
  obtain ⟨s₀, hrun₀, h₁⟩ := runShm_concat hcreate
  cases hrun₀
  obtain ⟨⟨seg, manager⟩, hseg, heq⟩ := Option.bind_eq_some_iff.mp h₁
  cases heq
  obtain ⟨hsize, -, hsegments, -⟩ := createSegment_eq hseg
  have hseg₁ : manager.segments 1 = some seg := by
    rw [hsegments]
    exact Function.update_self _ _ _
  have hseg₂ := (shmStep_moves h₂).segment (segmentsOk_run hrun₁) hseg₁
  have hseg₃ := (shmStep_moves h₃).segment (segmentsOk_run hrun₂) hseg₂
  refine ⟨⟨seg, hseg₃, hsize⟩, ?_, ?_⟩
  · refine attachedAt_of_run hrun₁ (by simp [hseg₁]) h₂ fun op hop => ?_
    rw [List.mem_singleton.mp hop]
    exact fun hmaps => hne hmaps.1
  · exact attachedAt_of_run hrun₂ (by simp [hseg₂]) h₃ fun op hop => absurd hop List.not_mem_nil

theorem not_seenAlike {v₁ v₂ : UInt64} {p₁ p₂ : P} (hne : p₂ ≠ p₁)
    (hrun : runShm tables (createAttachTwice size v₁ v₂ p₁ p₂) = some s) (hpos : 1 ≤ size)
    (haligned₁ : v₁ % (tables p₁).pageSize = 0) (haligned₂ : v₂ % (tables p₂).pageSize = 0)
    {k : UInt64} (hk : (k.toNat : ℤ) < size)
    (hdiffer : ¬ ∃ a, physicalAddress (s.tables p₁) (v₁ + k) false = some a ∧
      physicalAddress (s.tables p₂) (v₂ + k) false = some a) :
    ¬ SeenAlike tables (createAttachTwice size v₁ v₂ p₁ p₂) s := by
  obtain ⟨⟨seg, hseg, rfl⟩, hat₁, hat₂⟩ := attached_twice hne hrun
  intro hseen
  exact hdiffer (hseen 1 seg v₁ p₁ v₂ p₂ hseg hpos hat₁ hat₂ haligned₁ haligned₂ k false hk)

end SharedMemory

/-- Two tables of four pages, with the given page sizes. -/
def twoTables (size₁ size₂ : UInt64) : Bool → PageTable
  | false => newPageTable 7 4 size₁
  | true => newPageTable 8 4 size₂

/-- A segment of 100 bytes at different addresses of two processes. -/
theorem attached_share_hundredBytes :
    ∃ s, runShm (twoTables 4096 4096) (createAttachTwice 100 4096 0 false true) = some s ∧
      ∀ (k : UInt64) w, (k.toNat : ℤ) < 100 → ∃ a,
        physicalAddress (s.tables false) (4096 + k) w = some a ∧
        physicalAddress (s.tables true) (0 + k) w = some a := by
  obtain ⟨s, hs⟩ := Option.isSome_iff_exists.mp (show (runShm (twoTables 4096 4096)
    (createAttachTwice 100 4096 0 false true)).isSome = true by decide)
  obtain ⟨hseg, hat₁, hat₂⟩ := attached_twice (by decide) hs
  refine ⟨s, hs, (attached_share _ _ s hs 4096).1 1 100 4096 false 0 true ⟨hseg, hat₁, ?_⟩
    ⟨hseg, hat₂, ?_⟩⟩
  · exact ⟨rfl, by decide, by decide, by decide, by decide⟩
  · exact ⟨rfl, by decide, by decide, by decide, by decide⟩

/-- `Attach` returns no error, and the processes do not see the same memory: a segment larger than
a page, a page outside of the table, and tables with different page sizes. -/
theorem attach_without_mapping :
    (∃ s, runShm (twoTables 4096 4096) (createAttachTwice 4097 0 0 false true) = some s ∧
      ¬ SeenAlike (twoTables 4096 4096) (createAttachTwice 4097 0 0 false true) s) ∧
    (∃ s, runShm (twoTables 4096 4096) (createAttachTwice 1 16384 0 false true) = some s ∧
      ¬ SeenAlike (twoTables 4096 4096) (createAttachTwice 1 16384 0 false true) s) ∧
    (∃ s, runShm (twoTables 4096 8192) (createAttachTwice 1 0 0 false true) = some s ∧
      ¬ SeenAlike (twoTables 4096 8192) (createAttachTwice 1 0 0 false true) s) := by
  refine ⟨?_, ?_, ?_⟩
  · obtain ⟨s, hs, haddr⟩ := Option.map_eq_some_iff.mp (show (runShm (twoTables 4096 4096)
      (createAttachTwice 4097 0 0 false true)).map
        (fun s => physicalAddress (s.tables false) (0 + 4096) false) = some none by decide)
    refine ⟨s, hs, not_seenAlike (k := 4096) (by decide) hs (by decide) (by decide) (by decide)
      (by decide) ?_⟩
    rintro ⟨a, ha, -⟩
    cases haddr.symm.trans ha
  · obtain ⟨s, hs, haddr⟩ := Option.map_eq_some_iff.mp (show (runShm (twoTables 4096 4096)
      (createAttachTwice 1 16384 0 false true)).map
        (fun s => physicalAddress (s.tables false) (16384 + 0) false) = some none by decide)
    refine ⟨s, hs, not_seenAlike (k := 0) (by decide) hs (by decide) (by decide) (by decide)
      (by decide) ?_⟩
    rintro ⟨a, ha, -⟩
    cases haddr.symm.trans ha
  · obtain ⟨s, hs, haddr⟩ := Option.map_eq_some_iff.mp (show (runShm (twoTables 4096 8192)
      (createAttachTwice 1 0 0 false true)).map
        (fun s => (physicalAddress (s.tables false) (0 + 0) false,
          physicalAddress (s.tables true) (0 + 0) false)) =
        some (some 2052096, some 4104192) by decide)
    refine ⟨s, hs, not_seenAlike (k := 0) (by decide) hs (by decide) (by decide) (by decide)
      (by decide) ?_⟩
    rintro ⟨a, ha, ha'⟩
    have h₁ := (congrArg Prod.fst haddr).symm.trans ha
    have h₂ := (congrArg Prod.snd haddr).symm.trans ha'
    exact absurd (h₁.trans h₂.symm) (by decide)

end OsSimulator.Analysis
