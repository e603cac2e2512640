import OsSimulator.Analysis.PagingFrames
import OsSimulator.Interface.AccessMoves
import Mathlib.Data.List.Count

/-!
# The counters of the memory manager

`PageFaults`, `PageEvictions`, `SwapReads` and `SwapWrites` are counted at different points of the
fault path.  In every run they account for the frames (`Counted`): a page fault fills a free frame
as long as there is one and evicts afterwards, so that the occupied frames and the evictions add up
to the faults.

An access to a present page only touches a frame; `Counted.fill` and `Counted.evict` are the two
ways to load one.
-/

set_option autoImplicit false

namespace OsSimulator.Analysis

open Model Interface Library

/-- The number of occupied frames. -/
def occupied (frames : List FrameInfo) : ℕ := frames.countP FrameInfo.isOccupied

/-- The frames have their position as PFN. -/
def Numbered (frames : List FrameInfo) : Prop :=
  ∀ (i : ℕ) (f : FrameInfo), frames[i]? = some f → f.pfn.toNat = i

/-- The counters agree with the frame table. -/
structure Counted (mm : MemoryManager) : Prop where
  reads : mm.swapReads = mm.pageFaults
  frames : occupied mm.frames = min mm.numFrames mm.pageFaults
  evictions : (mm.pageEvictions : ℤ) = mm.pageFaults - occupied mm.frames
  writes : mm.swapWrites ≤ mm.pageEvictions
  pfn : Numbered mm.frames

/-- Frames, hand, page tables and counters are the same. -/
structure NothingCounted (s s' : PagingSystem) : Prop where
  frames_eq : s'.mm.frames = s.mm.frames
  hand_eq : s'.mm.clockHand = s.mm.clockHand
  tables_eq : s'.tables = s.tables
  faults_eq : s'.mm.pageFaults = s.mm.pageFaults
  evictions_eq : s'.mm.pageEvictions = s.mm.pageEvictions
  reads_eq : s'.mm.swapReads = s.mm.swapReads
  writes_eq : s'.mm.swapWrites = s.mm.swapWrites

/-! ## The frame table -/

section Frames

variable {frames frames' : List FrameInfo} {i : ℕ}

/-- The part of a frame that is accounted for. -/
def frameAccount (f : FrameInfo) : UInt64 × Bool := (f.pfn, f.isOccupied)

theorem occupied_congr (h : frames'.map frameAccount = frames.map frameAccount) :
    occupied frames' = occupied frames := by
  have hcount : ∀ l : List FrameInfo, occupied l = (l.map frameAccount).countP Prod.snd := by
    intro l
    rw [List.countP_map]
    rfl
  rw [hcount, hcount, h]

theorem Numbered.congr (hpfn : Numbered frames)
    (h : frames'.map frameAccount = frames.map frameAccount) : Numbered frames' := by
  intro i f hf
  have hget : (frames.map frameAccount)[i]? = some (frameAccount f) := by
    rw [← h, List.getElem?_map, hf]
    rfl
  rw [List.getElem?_map] at hget
  obtain ⟨f₀, hf₀, heq⟩ := Option.map_eq_some_iff.mp hget
  rw [← hpfn i f₀ hf₀]
  exact congrArg (fun a => a.1.toNat) heq.symm

/-- Loading a page into a frame. -/
theorem Numbered.load (hpfn : Numbered frames) (hi : (UInt64.ofNat i).toNat = i) (tick : ℤ)
    (isWrite : Bool) (p : Page) : Numbered (frames.set i (loaded tick isWrite i p)) := by
  intro j f hf
  rw [List.getElem?_set] at hf
  split_ifs at hf with hij hlt
  · subst hij
    rw [← Option.some.inj hf]
    exact hi
  · exact hpfn j f hf

theorem occupied_load (hlt : i < frames.length) (tick : ℤ) (isWrite : Bool) (p : Page) :
    occupied (frames.set i (loaded tick isWrite i p)) =
      occupied frames - (if frames[i].isOccupied then 1 else 0) + 1 := by
  rw [occupied, List.countP_set hlt]
  rfl

theorem occupied_of_full (hfull : ∀ f ∈ frames, f.isOccupied = true) :
    occupied frames = frames.length :=
  List.countP_eq_length.mpr hfull

end Frames

/-! ## Moves -/

section Moves

variable {c : MemoryAccess} {s s' : PagingSystem} {r : AccessResult}

/-- A load counts one fault and one read. -/
theorem Counted.fill (h : Counted s.mm) (hmm : ManagerOk s.mm) {i : ℕ}
    (hfree : s.mm.frames.findIdx? (fun f => !f.isOccupied) = some i) (writable : Bool)
    (history : List String) :
    Counted (afterLoad c s i s.mm.clockHand s.mm.frames 0 0 writable history) := by
  obtain ⟨hlt, hnot, -⟩ := List.findIdx?_eq_some_iff_getElem.mp hfree
  have hempty : s.mm.frames[i].isOccupied = false := by simpa using hnot
  -- the free frame is why the counted minimum is still below the number of frames
  have hroom : occupied s.mm.frames < s.mm.numFrames :=
    hmm.length_eq ▸ List.countP_lt_length_iff.mpr ⟨_, List.getElem_mem hlt, hempty⟩
  have hframes := h.frames
  have hevictions := h.evictions
  have hocc : occupied (afterLoad c s i s.mm.clockHand s.mm.frames 0 0 writable history).frames =
      occupied s.mm.frames + 1 := by
    unfold afterLoad
    rw [occupied_load hlt, hempty]
    rfl
  refine ⟨congrArg (· + 1) h.reads, ?_, ?_, h.writes, ?_⟩
  · rw [hocc]
    show _ = min s.mm.numFrames (s.mm.pageFaults + 1)
    omega
  · rw [hocc]
    show ((s.mm.pageEvictions + 0 : ℕ) : ℤ) = ((s.mm.pageFaults + 1 : ℕ) : ℤ) - _
    push_cast
    omega
  · exact h.pfn.load (toNat_ofNat_of_lt hmm (hmm.length_eq ▸ hlt)) _ _ _

/-- A load over a victim counts an eviction too, and a write if the victim is dirty. -/
theorem Counted.evict (h : Counted s.mm) (hmm : ManagerOk s.mm) {i hand : ℕ}
    {frames : List FrameInfo} {victim : FrameInfo}
    (hfull : ∀ f ∈ s.mm.frames, f.isOccupied = true)
    (hfound : victimOf s.mm.policy s.mm.numFrames s.mm.clockHand s.mm.frames =
      some (i, hand, frames)) (writable : Bool) (history : List String) :
    Counted (afterLoad c s i hand frames 1 victim.isDirty.toNat writable history) := by
  obtain ⟨hlt, -, d, rfl⟩ := victimOf_spec hmm hfound
  let frames := mapArc passed s.mm.clockHand d s.mm.frames
  have hsame : frames.map frameAccount = s.mm.frames.map frameAccount := map_mapArc fun _ => rfl
  have hlen : i < frames.length := by
    rw [length_mapArc, hmm.length_eq]
    exact hlt
  have hall : occupied s.mm.frames = s.mm.numFrames :=
    (occupied_of_full hfull).trans hmm.length_eq
  have hvictim : frames[i].isOccupied = true := by
    have hmem : frameAccount frames[i] ∈ frames.map frameAccount :=
      List.mem_map_of_mem (List.getElem_mem hlen)
    rw [hsame] at hmem
    obtain ⟨f, hf, heq⟩ := List.mem_map.mp hmem
    exact (congrArg Prod.snd heq.symm).trans (hfull f hf)
  have hframes := h.frames
  have hevictions := h.evictions
  have hpos := hmm.pos
  have hocc : occupied (frames.set i (loaded (s.mm.currentTick + 1) c.isWrite i
      ((s.tables c.pid).pid, (accessedPage c s).2))) = s.mm.numFrames := by
    rw [occupied_load hlen, hvictim, occupied_congr hsame, hall, if_pos rfl]
    omega
  refine ⟨congrArg (· + 1) h.reads, ?_, ?_, ?_, ?_⟩
  · show occupied (frames.set i _) = min s.mm.numFrames (s.mm.pageFaults + 1)
    rw [hocc]
    omega
  · show ((s.mm.pageEvictions + 1 : ℕ) : ℤ) =
      ((s.mm.pageFaults + 1 : ℕ) : ℤ) - occupied (frames.set i _)
    rw [hocc]
    push_cast
    omega
  · exact Nat.add_le_add h.writes (Bool.toNat_le victim.isDirty)
  · exact (h.pfn.congr hsame).load (toNat_ofNat_of_lt hmm hlt) _ _ _

/-- **Every access keeps the accounts.** -/
theorem Counted.move (h : Counted s.mm) (hmm : ManagerOk s.mm) (hmove : AccessMove c s r s') :
    Counted s'.mm := by
  have htouch : ∀ i (tlb : TLB), Counted { lookedUp c s with
      tlb, frames := s.mm.frames.modify i (touched (s.mm.currentTick + 1) c.isWrite) } := by
    intro i tlb
    have hsame :
        (s.mm.frames.modify i (touched (s.mm.currentTick + 1) c.isWrite)).map frameAccount =
          s.mm.frames.map frameAccount := map_modify_touched (fun _ => rfl) _ _
    have hocc := occupied_congr hsame
    exact ⟨h.reads, hocc.trans h.frames, hocc.symm ▸ h.evictions, h.writes, h.pfn.congr hsame⟩
  cases hmove with
  | divides zero => exact ⟨h.reads, h.frames, h.evictions, h.writes, h.pfn⟩
  | rejects size_pos missed invalid beyond =>
    exact ⟨h.reads, h.frames, h.evictions, h.writes, h.pfn⟩
  | overruns size_pos missed noEntry past =>
    exact ⟨h.reads, h.frames, h.evictions, h.writes, h.pfn⟩
  | hits size_pos cached lt => exact htouch _ _
  | hitsOutside size_pos cached ge => exact ⟨h.reads, h.frames, h.evictions, h.writes, h.pfn⟩
  | walks walk present lt => exact htouch _ _
  | walksOutside walk present ge => exact ⟨h.reads, h.frames, h.evictions, h.writes, h.pfn⟩
  | fills walk absent lt free => exact h.fill hmm free _ _
  | evicts walk absent lt full found victim_eq => exact h.evict hmm full found _ _

/-- An error is found before anything is counted. -/
theorem nothingCounted_of_error {message : String} (hr : r = .error message)
    (hmove : AccessMove c s r s') : NothingCounted s s' := by
  cases hmove with
  | rejects size_pos missed invalid beyond => exact ⟨rfl, rfl, rfl, rfl, rfl, rfl, rfl⟩
  | divides zero => cases hr
  | overruns size_pos missed noEntry past => cases hr
  | hits size_pos cached lt => cases hr
  | hitsOutside size_pos cached ge => cases hr
  | walks walk present lt => cases hr
  | walksOutside walk present ge => cases hr
  | fills walk absent lt free => cases hr
  | evicts walk absent lt full found victim_eq => cases hr

end Moves

/-! ## Runs -/

theorem counted_init (S : PagingSetup) : Counted S.init.mm := by
  have hempty : occupied S.init.mm.frames = 0 := by
    refine List.countP_eq_zero.mpr fun f hf => ?_
    obtain ⟨i, -, rfl⟩ := List.mem_map.mp hf
    exact Bool.false_ne_true
  refine ⟨rfl, ?_, ?_, le_rfl, fun i f hf => ?_⟩
  · rw [hempty]
    exact (Nat.min_zero _).symm
  · rw [hempty]
    rfl
  · have hget : S.init.mm.frames[i]? =
        ((List.range S.init.mm.numFrames)[i]?).map fun i => { pfn := UInt64.ofNat i } :=
      List.getElem?_map
    rw [hget] at hf
    obtain ⟨j, hj, rfl⟩ := Option.map_eq_some_iff.mp hf
    obtain ⟨hlt, rfl⟩ := List.getElem?_eq_some_iff.mp hj
    rw [List.getElem_range]
    have hmm : ManagerOk S.init.mm := managerOk_new ..
    exact toNat_ofNat_of_lt hmm (by simpa using hlt)

/-- **The counters account for every frame**, under every policy and for any number of frames and
of TLB slots, and an access that returns an error changes nothing that is counted.
SOURCE: pkg/memory/page_replacement.go:65-204 -/
theorem counted_after (S : PagingSetup) (calls : List MemoryAccess) :
    Counted (S.after calls).mm ∧
      ∀ c message, ((S.after calls).access c).1 = .error message →
        NothingCounted (S.after calls) ((S.after calls).access c).2 := by
  constructor
  · induction calls using List.reverseRecOn with
    | nil => exact counted_init S
    | append_singleton calls c ih =>
      rw [after_append]
      have hmm := (pagingOk_after (S := S) calls).1.manager
      exact ih.move hmm (access_moves hmm c)
  · intro c message herror
    exact nothingCounted_of_error herror (access_moves (pagingOk_after (S := S) calls).1.manager c)

end OsSimulator.Analysis
