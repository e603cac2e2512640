import OsSimulator.Interface.PagingView

/-!
# What an access does to the frame table

The replacement policies read the frame table, the clock hand and the tick.  `touched` and
`loaded` are the two ways in which a frame is written, `victimOf` is the frame that a policy
evicts, and the branches of `allocateFrame` and of `AccessMemory` are stated with them.
-/

set_option autoImplicit false

namespace OsSimulator.Interface

open Model Library

/-- A frame when it has been accessed. -/
def touched (tick : ℤ) (isWrite : Bool) (f : FrameInfo) : FrameInfo :=
  { f with lastUsedTick := tick, useBit := true, isDirty := isWrite || f.isDirty }

/-- Frame `i` when a page has been loaded into it and accessed. -/
def loaded (tick : ℤ) (isWrite : Bool) (i : ℕ) (p : Page) : FrameInfo :=
  touched tick isWrite
    { pfn := UInt64.ofNat i, pid := p.1, vpn := p.2, isOccupied := true, loadedTick := tick,
      lastUsedTick := tick, useBit := true }

/-- The victim of the policy, with the hand and the frames when it is found. -/
def victimOf (policy : ReplacementPolicy) (numFrames hand : ℕ) (frames : List FrameInfo) :
    Option (ℕ × ℕ × List FrameInfo) :=
  match policy with
  | .fifo => some (oldestFrame FrameInfo.loadedTick frames, hand, frames)
  | .lru => some (oldestFrame FrameInfo.lastUsedTick frames, hand, frames)
  | .clock => clockSweep numFrames (frames.length + 1) hand frames
  | .other _ => some (0, hand, frames)

variable {pfn : UInt64}

section Manager

variable {mm : MemoryManager} {frames : List FrameInfo}

theorem chooseVictim_eq (mm : MemoryManager) :
    mm.chooseVictim = (victimOf mm.policy mm.numFrames mm.clockHand mm.frames).map
      fun r => (r.1, { mm with clockHand := r.2.1, frames := r.2.2 }) := by
  obtain ⟨numFrames, frames, hand, tick, policy, faults, evictions, writes, reads, tlb, history⟩ := mm
  cases policy <;> rfl

/-- The policy finds a frame, and on the way it clears use bits at most. -/
theorem exists_victim (hmm : ManagerOk mm) :
    ∃ i hand d, victimOf mm.policy mm.numFrames mm.clockHand mm.frames =
        some (i, hand, mapArc passed mm.clockHand d mm.frames) ∧
      i < mm.numFrames ∧ hand < mm.numFrames := by
  have hlen : 0 < mm.frames.length := hmm.length_eq.symm ▸ hmm.pos
  have hkept : ∀ i < mm.numFrames, ∃ i' hand d, some (i, mm.clockHand, mm.frames) =
      some (i', hand, mapArc passed mm.clockHand d mm.frames) ∧
        i' < mm.numFrames ∧ hand < mm.numFrames := by
    intro i hi
    exact ⟨i, mm.clockHand, 0, by rw [mapArc_zero], hi, hmm.hand_lt⟩
  cases mm.policy with
  | fifo => exact hkept _ (hmm.length_eq ▸ oldestFrame_lt _ hlen)
  | lru => exact hkept _ (hmm.length_eq ▸ oldestFrame_lt _ hlen)
  | clock =>
    obtain ⟨d, hd, -, -, hsweep⟩ := clockSweep_spec (hmm.length_eq.symm ▸ hmm.hand_lt)
    rw [hmm.length_eq] at hd hsweep
    have hstops := hsweep (mm.frames.length + 1)
    rw [if_pos (hmm.length_eq.symm ▸ Nat.lt_succ_of_le hd)] at hstops
    exact ⟨_, _, d, hstops, Nat.mod_lt _ hmm.pos, Nat.mod_lt _ hmm.pos⟩
  | other name => exact hkept 0 hmm.pos

theorem victimOf_spec (hmm : ManagerOk mm) {i hand : ℕ}
    (h : victimOf mm.policy mm.numFrames mm.clockHand mm.frames = some (i, hand, frames)) :
    i < mm.numFrames ∧ hand < mm.numFrames ∧
      ∃ d, frames = mapArc passed mm.clockHand d mm.frames := by
  obtain ⟨i', hand', d, hfound, hi, hhand⟩ := exists_victim hmm
  obtain ⟨rfl, rfl, rfl⟩ := by
    simpa only [Option.some.injEq, Prod.mk.injEq] using hfound.symm.trans h
  exact ⟨hi, hhand, d, rfl⟩

/-! `allocateFrame` loads the page into the first free frame, or over the victim of the policy when
all frames are occupied. -/

theorem allocateFrame_of_free {i : ℕ}
    (hfree : mm.frames.findIdx? (fun f => !f.isOccupied) = some i) (pid : ℤ) (vpn : UInt64) :
    mm.allocateFrame pid vpn = some (UInt64.ofNat i, 0, false, mm.loadFrame i pid vpn) := by
  unfold MemoryManager.allocateFrame
  rw [hfree]

theorem findIdx_free_eq_none_iff :
    frames.findIdx? (fun f => !f.isOccupied) = none ↔ ∀ f ∈ frames, f.isOccupied = true := by
  simp only [List.findIdx?_eq_none_iff, Bool.not_eq_false']

theorem allocateFrame_of_full (hfull : ∀ f ∈ mm.frames, f.isOccupied = true) {i hand : ℕ}
    {victim : FrameInfo}
    (hfound : victimOf mm.policy mm.numFrames mm.clockHand mm.frames = some (i, hand, frames))
    (hvictim : frames[i]? = some victim) (pid : ℤ) (vpn : UInt64) :
    mm.allocateFrame pid vpn =
      some (UInt64.ofNat i, victim.vpn, true, MemoryManager.loadFrame i pid vpn
        { mm with
          pageEvictions := mm.pageEvictions + 1
          clockHand := hand
          frames := frames
          swapWrites := mm.swapWrites + victim.isDirty.toNat }) := by
  unfold MemoryManager.allocateFrame
  rw [findIdx_free_eq_none_iff.mpr hfull, chooseVictim_eq]
  simp only [hfound, Option.map_some, hvictim]
  cases victim.isDirty <;> rfl

/-- What an access does not change in a frame is not changed in the table. -/
theorem map_modify_touched {β : Type*} {k : FrameInfo → β} {tick : ℤ} {isWrite : Bool}
    (hk : ∀ f, k (touched tick isWrite f) = k f) (frames : List FrameInfo) (i : ℕ) :
    (frames.modify i (touched tick isWrite)).map k = frames.map k := by
  apply List.ext_getElem?
  intro j
  rw [List.getElem?_map, List.getElem?_map, List.getElem?_modify]
  split
  · cases frames[j]? with
    | none => rfl
    | some f => exact congrArg some (hk f)
  · simp

theorem modify_eq_set {i : ℕ} {f : FrameInfo} (hi : frames[i]? = some f)
    (g : FrameInfo → FrameInfo) : frames.modify i g = frames.set i (g f) := by
  obtain ⟨hlt, rfl⟩ := List.getElem?_eq_some_iff.mp hi
  apply List.ext_getElem?
  intro j
  rw [List.getElem?_modify, List.getElem?_set]
  by_cases hij : i = j
  · subst hij
    simp [hlt]
  · simp [hij]

theorem touchFrame_of_lt (mm : MemoryManager) (hlt : pfn.toNat < mm.frames.length)
    (isWrite : Bool) :
    mm.touchFrame pfn isWrite =
      some { mm with frames := mm.frames.modify pfn.toNat (touched mm.currentTick isWrite) } := by
  unfold MemoryManager.touchFrame
  rw [if_pos hlt]
  rfl

theorem touchFrame_of_ge (mm : MemoryManager) (hge : mm.frames.length ≤ pfn.toNat)
    (isWrite : Bool) : mm.touchFrame pfn isWrite = none := by
  unfold MemoryManager.touchFrame
  rw [if_neg (Nat.not_lt.mpr hge)]

/-- The page fault branch is a call of `allocateFrame`, with a line of history. -/
theorem pageFault_of_allocated {pid : ℤ} {vpn pfn evicted : UInt64} {was : Bool}
    {mm₁ : MemoryManager}
    (halloc : MemoryManager.allocateFrame pid vpn
      { mm with pageFaults := mm.pageFaults + 1, swapReads := mm.swapReads + 1 } =
      some (pfn, evicted, was, mm₁)) (pte : PageTableEntry) :
    ∃ history, mm.pageFault pid vpn pte =
      some ({ mm₁ with history }, { pte with present := true, pfn, accessed := true }) := by
  unfold MemoryManager.pageFault
  dsimp only
  rw [halloc]
  exact ⟨_, rfl⟩

end Manager

/-! ## The two paths of an access -/

section Paths

variable {mm mm' : MemoryManager} {pt : PageTable} {vAddr : UInt64} {isWrite : Bool}
  {pte : PageTableEntry}

/-- The error for a page that is not mapped. -/
def notMapped (vpn : UInt64) : AccessResult :=
  .error (errInvalidPage ++ ": VPN " ++ toString vpn ++ " not mapped")

/-- The branch of a TLB miss.
SOURCE: pkg/memory/page_replacement.go:83-123 -/
def walk (pt : PageTable) (vAddr : UInt64) (isWrite : Bool) (mm : MemoryManager) :
    AccessResult × MemoryManager × PageTable :=
  let vpn := vAddr / pt.pageSize
  let offset := vAddr % pt.pageSize
  if goInt vpn ≥ pt.entries.length then (notMapped vpn, mm, pt) else
  match pt.entries[vpn.toNat]? with
  | none => (.panic, mm, pt)
  | some pte =>
    if !pte.valid then (notMapped vpn, mm, pt)
    else if pte.present then mm.finishAccess pt vpn offset isWrite pte
    else
      match mm.pageFault pt.pid vpn pte with
      | none => (.panic, mm, pt)
      | some (mm, pte) => mm.finishAccess pt vpn offset isWrite pte

/-- The memory manager when the TLB has answered. -/
def afterLookup (pt : PageTable) (vAddr : UInt64) (mm : MemoryManager) : MemoryManager :=
  { mm with
    currentTick := mm.currentTick + 1
    tlb := (mm.tlb.lookup pt.pid (vAddr / pt.pageSize)).2 }

theorem accessMemory_of_miss (hsize : pt.pageSize ≠ 0)
    (hmiss : (mm.tlb.lookup pt.pid (vAddr / pt.pageSize)).1 = none) :
    mm.accessMemory pt vAddr isWrite = walk pt vAddr isWrite (afterLookup pt vAddr mm) := by
  unfold MemoryManager.accessMemory
  simp only [if_neg hsize, hmiss]
  rfl

theorem accessMemory_of_hit (hsize : pt.pageSize ≠ 0)
    (hhit : (mm.tlb.lookup pt.pid (vAddr / pt.pageSize)).1 = some pfn)
    (htouch : (afterLookup pt vAddr mm).touchFrame pfn isWrite = some mm') :
    mm.accessMemory pt vAddr isWrite =
      (.ok (pfn * pt.pageSize + vAddr % pt.pageSize), mm', pt) := by
  unfold afterLookup at htouch
  unfold MemoryManager.accessMemory
  simp only [if_neg hsize, hhit, htouch]

theorem accessMemory_of_hit_outside (hsize : pt.pageSize ≠ 0)
    (hhit : (mm.tlb.lookup pt.pid (vAddr / pt.pageSize)).1 = some pfn)
    (htouch : (afterLookup pt vAddr mm).touchFrame pfn isWrite = none) :
    mm.accessMemory pt vAddr isWrite = (.panic, afterLookup pt vAddr mm, pt) := by
  unfold afterLookup at htouch ⊢
  unfold MemoryManager.accessMemory
  simp only [if_neg hsize, hhit, htouch]

theorem walk_of_none (hget : pt.entries[(vAddr / pt.pageSize).toNat]? = none) :
    walk pt vAddr isWrite mm =
      (if goInt (vAddr / pt.pageSize) ≥ pt.entries.length then notMapped (vAddr / pt.pageSize)
        else .panic, mm, pt) := by
  unfold walk
  simp only [hget]
  split_ifs <;> rfl

theorem walk_of_invalid (hget : pt.entries[(vAddr / pt.pageSize).toNat]? = some pte)
    (hvalid : pte.valid = false) :
    walk pt vAddr isWrite mm = (notMapped (vAddr / pt.pageSize), mm, pt) := by
  unfold walk
  simp only [if_neg (not_goInt_ge hget), hget, hvalid, Bool.not_false, if_true]

theorem walk_of_present (hget : pt.entries[(vAddr / pt.pageSize).toNat]? = some pte)
    (hvalid : pte.valid = true) (hpresent : pte.present = true) :
    walk pt vAddr isWrite mm =
      mm.finishAccess pt (vAddr / pt.pageSize) (vAddr % pt.pageSize) isWrite pte := by
  unfold walk
  simp only [if_neg (not_goInt_ge hget), hget, hvalid, hpresent, Bool.not_true,
    Bool.false_eq_true, if_false, if_true]

theorem walk_of_absent (hget : pt.entries[(vAddr / pt.pageSize).toNat]? = some pte)
    (hvalid : pte.valid = true) (hpresent : pte.present = false) {pte' : PageTableEntry}
    (hfault : mm.pageFault pt.pid (vAddr / pt.pageSize) pte = some (mm', pte')) :
    walk pt vAddr isWrite mm =
      mm'.finishAccess pt (vAddr / pt.pageSize) (vAddr % pt.pageSize) isWrite pte' := by
  unfold walk
  simp only [if_neg (not_goInt_ge hget), hget, hvalid, hpresent, Bool.not_true,
    Bool.false_eq_true, if_false, hfault]

theorem walk_of_noFrame (hget : pt.entries[(vAddr / pt.pageSize).toNat]? = some pte)
    (hvalid : pte.valid = true) (hpresent : pte.present = false)
    (hfault : mm.pageFault pt.pid (vAddr / pt.pageSize) pte = none) :
    walk pt vAddr isWrite mm = (.panic, mm, pt) := by
  unfold walk
  simp only [if_neg (not_goInt_ge hget), hget, hvalid, hpresent, Bool.not_true,
    Bool.false_eq_true, if_false, hfault]

theorem finishAccess_of_touch {vpn offset : UInt64}
    (htouch : { mm with tlb := mm.tlb.insert pt.pid vpn pte.pfn pte.readWrite }.touchFrame pte.pfn
      isWrite = some mm') :
    mm.finishAccess pt vpn offset isWrite pte =
      (.ok (pte.pfn * pt.pageSize + offset), mm',
        { pt with entries := pt.entries.set vpn.toNat { pte with dirty := isWrite || pte.dirty } }) := by
  unfold MemoryManager.finishAccess
  simp only [htouch]

theorem finishAccess_of_noFrame {vpn offset : UInt64}
    (htouch : { mm with tlb := mm.tlb.insert pt.pid vpn pte.pfn pte.readWrite }.touchFrame pte.pfn
      isWrite = none) :
    mm.finishAccess pt vpn offset isWrite pte =
      (.panic, { mm with tlb := mm.tlb.insert pt.pid vpn pte.pfn pte.readWrite },
        { pt with entries := pt.entries.set vpn.toNat pte }) := by
  unfold MemoryManager.finishAccess
  simp only [htouch]

end Paths

/-- A translation is a valid and present entry. -/
theorem entryFrame_eq_some_iff {e : PageTableEntry} {f : ℕ} :
    entryFrame e = some f ↔ e.valid = true ∧ e.present = true ∧ e.pfn.toNat = f := by
  unfold entryFrame
  cases e.valid <;> cases e.present <;> simp

theorem entry_of_tableFrame {tables : ℤ → PageTable} {pid : ℤ} {vpn pfn : UInt64}
    (h : tableFrame tables (pid, vpn) = some pfn.toNat) :
    ∃ pte, (tables pid).entries[vpn.toNat]? = some pte ∧ pte.valid = true ∧ pte.present = true ∧
      pte.pfn = pfn := by
  obtain ⟨pte, hget, hentry⟩ := Option.bind_eq_some_iff.mp h
  obtain ⟨hvalid, hpresent, hpfn⟩ := entryFrame_eq_some_iff.mp hentry
  exact ⟨pte, hget, hvalid, hpresent, UInt64.toNat_inj.mp hpfn⟩

end OsSimulator.Interface
