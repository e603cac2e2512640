import Mathlib.Data.Finset.Filter
import OsSimulator.Analysis.FreeListHeap

/-!
# Freeing in any order

Freeing a live address takes its interval out of the live ones, so freeing several in turn leaves
the live intervals that start at none of them, whatever the order (`frees_spec`).  A coalesced
tiling is determined by its used tiles, and of several blocks that are merged the header of the
first one stays (`Shrunk`), so the blocks are the same, links included (`Shrunk.blockList_eq`).

* `free_in_any_order`: two orders of the same addresses give the same block list, and freeing all
  live addresses gives back the heap as one free block.
-/

set_option autoImplicit false

namespace OsSimulator.Analysis

open Library Model Interface

/-- `Free` of each address in turn: what the calls return, and the allocator afterwards. -/
def freeEach : List UInt64 → FreeListAllocator → List (Except HeapError Unit) × FreeListAllocator
  | [], fla => ([], fla)
  | addr :: addrs, fla =>
    let (result, fla) := fla.free addr
    let (results, fla) := freeEach addrs fla
    (result :: results, fla)

/-- The address of an allocated block. -/
def IsLive (fla : FreeListAllocator) (addr : UInt64) : Prop :=
  ∃ b ∈ fla.blockList, b.addr = addr ∧ b.isAllocated = true

section Live

variable {fla : FreeListAllocator} {ps : List ℕ} {addr : UInt64}

theorem isLive_iff : IsLive fla addr ↔ ∃ len, (addr.toNat, len) ∈ liveOf fla := by
  constructor
  · rintro ⟨b, hb, rfl, hused⟩
    exact ⟨b.size.toNat, mem_liveIntervals.mpr ⟨tileOf b, List.mem_map_of_mem hb, hused, rfl⟩⟩
  · rintro ⟨len, hlen⟩
    obtain ⟨t, ht, hused, heq⟩ := mem_liveIntervals.mp hlen
    obtain ⟨b, hb, rfl⟩ := List.mem_map.mp ht
    exact ⟨b, hb, UInt64.toNat_inj.mp (congrArg Prod.fst heq), hused⟩

/-- Live intervals that start at one address are the same. -/
theorem live_start_unique {start total : ℕ} (heap : IntervalHeap start total) {i j : ℕ × ℕ}
    (hi : i ∈ heap.live) (hj : j ∈ heap.live) (hstart : i.1 = j.1) : i = j := by
  by_contra hne
  have hpos := heap.pos i hi
  have hpos' := heap.pos j hj
  have := heap.disjoint i hi j hj hne
  omega

/-- Freeing a live address succeeds and takes out the interval that starts there. -/
theorem free_live (h : ListOk fla ps) (hlive : IsLive fla addr) :
    (fla.free addr).1 = .ok () ∧
      liveOf (fla.free addr).2 = (liveOf fla).filter fun i => i.1 ≠ addr.toNat := by
  have hfree := freeRemoves_of_listOk h addr
  obtain ⟨len, hlen⟩ := isLive_iff.mp hlive
  rw [liveOf_eq h] at hlen ⊢
  refine ⟨hfree.succeeds_iff.mpr ⟨len, hlen⟩, ?_⟩
  rw [hfree.removes len hlen]
  ext i
  rw [Finset.mem_erase, Finset.mem_filter, and_comm]
  refine and_congr_right fun hi => not_congr ⟨fun heq => by rw [heq], fun hstart => ?_⟩
  exact live_start_unique _ hi hlen hstart

end Live

/-! ## One free after the other -/

/-- The allocator `fla'`, with the pointers `ps'`, after blocks of `fla` have been freed: headers
may have gone, those that are left stand where they stood. -/
structure Shrunk (fla : FreeListAllocator) (ps : List ℕ) (fla' : FreeListAllocator)
    (ps' : List ℕ) : Prop where
  ok : ListOk fla' ps'
  sublist : ps'.Sublist ps
  addr_eq : ∀ p, (fla'.blocks p).addr = (fla.blocks p).addr
  heapStart : fla'.heapStart = fla.heapStart
  totalSize : fla'.totalSize = fla.totalSize
  head : fla'.head = fla.head

section Frees

variable {fla fla' fla'' : FreeListAllocator} {ps ps' ps'' : List ℕ}

theorem Shrunk.refl (h : ListOk fla ps) : Shrunk fla ps fla ps :=
  ⟨h, List.Sublist.refl _, fun _ => rfl, rfl, rfl, rfl⟩

theorem Shrunk.trans (h : Shrunk fla ps fla' ps') (h' : Shrunk fla' ps' fla'' ps'') :
    Shrunk fla ps fla'' ps'' := by
  refine ⟨h'.ok, h'.sublist.trans h.sublist, fun p => ?_, h'.heapStart.trans h.heapStart,
    h'.totalSize.trans h.totalSize, h'.head.trans h.head⟩
  rw [h'.addr_eq, h.addr_eq]

theorem shrunk_free (h : ListOk fla ps) (addr : UInt64) :
    ∃ ps', Shrunk fla ps (fla.free addr).2 ps' := by
  rcases free_cases h.toBlocksOk addr with ⟨xs, p, ys, rfl, hused, -, heq⟩ | ⟨-, e, heq⟩
  · obtain ⟨ps', hok, hsub, -⟩ := h.releaseBlock hused
    rw [heq]
    exact ⟨ps', hok, hsub, fun q => releaseBlock_addr p q fla, rfl, rfl, rfl⟩
  · rw [heq]
    exact ⟨ps, Shrunk.refl h⟩

/-- **Freeing live addresses in turn**: every call succeeds, and the live intervals that start at
other addresses are left. -/
theorem frees_spec (h : ListOk fla ps) {addrs : List UInt64} (hnodup : addrs.Nodup)
    (hlive : ∀ addr ∈ addrs, IsLive fla addr) :
    (∀ r ∈ (freeEach addrs fla).1, r = .ok ()) ∧
      (∃ ps', Shrunk fla ps (freeEach addrs fla).2 ps') ∧
      liveOf (freeEach addrs fla).2 =
        (liveOf fla).filter fun i => i.1 ∉ addrs.map UInt64.toNat := by
  induction addrs generalizing fla ps with
  | nil =>
    refine ⟨by simp [freeEach], ⟨ps, Shrunk.refl h⟩, ?_⟩
    simp [freeEach]
  | cons addr addrs ih =>
    rw [List.nodup_cons] at hnodup
    rw [List.forall_mem_cons] at hlive
    obtain ⟨hok, hlive'⟩ := free_live h hlive.1
    obtain ⟨ps₁, hshrunk⟩ := shrunk_free h addr
    have hrest : ∀ a ∈ addrs, IsLive (fla.free addr).2 a := by
      intro a ha
      obtain ⟨len, hlen⟩ := isLive_iff.mp (hlive.2 a ha)
      refine isLive_iff.mpr ⟨len, ?_⟩
      rw [hlive', Finset.mem_filter]
      refine ⟨hlen, fun heq => hnodup.1 ?_⟩
      exact UInt64.toNat_inj.mp heq ▸ ha
    obtain ⟨hresults, ⟨ps₂, hshrunk'⟩, hleft⟩ := ih hshrunk.ok hnodup.2 hrest
    refine ⟨List.forall_mem_cons.mpr ⟨hok, hresults⟩, ⟨ps₂, hshrunk.trans hshrunk'⟩, ?_⟩
    show liveOf (freeEach addrs (fla.free addr).2).2 = _
    rw [hleft, hlive', Finset.filter_filter]
    simp only [List.map_cons, List.mem_cons, not_or]

/-! ## The blocks that are left -/

theorem eq_of_map_eq {α β : Type*} {f : α → β} {xs ys zs : List α}
    (hinj : ∀ a ∈ zs, ∀ b ∈ zs, f a = f b → a = b) (hxs : xs ⊆ zs) (hys : ys ⊆ zs)
    (h : xs.map f = ys.map f) : xs = ys := by
  induction xs generalizing ys with
  | nil => exact (List.map_eq_nil_iff.mp h.symm).symm
  | cons x xs ih =>
    cases ys with
    | nil => cases h
    | cons y ys =>
      obtain ⟨hhead, htail⟩ := List.cons.inj h
      rw [List.cons_subset] at hxs hys
      rw [hinj x hxs.1 y hys.1 hhead, ih hxs.2 hys.2 htail]

/-- The headers of a doubly linked list are given by their tiles. -/
theorem map_blocks_eq {s s' : Store} (h : ChainOk s ps) (h' : ChainOk s' ps)
    (htiles : tilesAt s ps = tilesAt s' ps) : ps.map s = ps.map s' := by
  refine List.map_congr_left fun p hp => ?_
  have htile : tileOf (s p) = tileOf (s' p) := List.map_inj_left.mp htiles p hp
  obtain ⟨xs, ys, rfl⟩ := List.append_of_mem hp
  have hnext : (s p).next = (s' p).next := h.next_eq.trans h'.next_eq.symm
  have hprev : (s p).prev = (s' p).prev := h.prev_eq.trans h'.prev_eq.symm
  have haddr : (s p).addr = (s' p).addr := UInt64.toNat_inj.mp (congrArg Tile.addr htile)
  have hsize : (s p).size = (s' p).size := UInt64.toNat_inj.mp (congrArg Tile.size htile)
  have hused : (s p).isAllocated = (s' p).isAllocated := congrArg Tile.used htile
  cases hs : s p
  cases hs' : s' p
  rw [hs, hs'] at hnext hprev haddr hsize hused
  cases hnext
  cases hprev
  cases haddr
  cases hsize
  cases hused
  rfl

/-- **The blocks that are left are determined by the live intervals that are left.** -/
theorem Shrunk.blockList_eq (h : Shrunk fla ps fla' ps') (h' : Shrunk fla ps fla'' ps'')
    (hok : ListOk fla ps) (htotal : 0 < fla.totalSize.toNat) (hlive : liveOf fla' = liveOf fla'') :
    fla'.blockList = fla''.blockList ∧ fla'.allocatedBytes = fla''.allocatedBytes := by
  have htiling := h.ok.tiling
  have htiling' := h'.ok.tiling
  rw [h.heapStart, h.totalSize] at htiling
  rw [h'.heapStart, h'.totalSize] at htiling'
  rw [liveOf_eq h.ok, liveOf_eq h'.ok] at hlive
  have htiles := htiling.eq_of_live htiling' htotal hlive
  have haddrs : ps'.map (fun p => (fla.blocks p).addr) = ps''.map fun p => (fla.blocks p).addr := by
    have hmap := congrArg (List.map fun t => UInt64.ofNat t.addr) htiles
    simpa [tilesAt, tileOf, Function.comp_def, h.addr_eq, h'.addr_eq] using hmap
  obtain rfl : ps' = ps'' :=
    eq_of_map_eq (fun _ hp _ hq => List.inj_on_of_nodup_map hok.toBlocksOk.addr_nodup hp hq)
      h.sublist.subset h'.sublist.subset haddrs
  constructor
  · unfold FreeListAllocator.blockList
    rw [h.ok.pointers_eq, h'.ok.pointers_eq]
    exact map_blocks_eq h.ok.toChainOk h'.ok.toChainOk htiles
  · refine UInt64.toNat_inj.mp ?_
    rw [h.ok.bytes, h'.ok.bytes, htiles]

/-- Without live intervals the heap is one free block. -/
theorem single_block (h : ListOk fla ps) (hhead : fla.head ≠ none) (hlive : liveOf fla = ∅) :
    (∃ b, fla.blockList = [b] ∧ b.addr = fla.heapStart ∧ b.size = fla.totalSize ∧
      b.isAllocated = false) ∧ fla.allocatedBytes = 0 := by
  have hne : tilesAt fla.blocks ps ≠ [] := by
    intro hnil
    rw [List.map_eq_nil_iff.mp hnil] at h
    exact hhead h.head
  have hfree : ∀ t ∈ tilesAt fla.blocks ps, t.used = false := by
    intro t ht
    by_contra hused
    have hmem : (t.addr, t.size) ∈ liveOf fla := by
      rw [liveOf_eq h]
      exact mem_liveIntervals.mpr ⟨t, ht, by simpa using hused, rfl⟩
    rw [hlive] at hmem
    simp at hmem
  have hsingle := h.tiling.eq_single hne hfree
  have hbytes := h.bytes
  rw [hsingle] at hbytes
  obtain ⟨p, rfl, htile⟩ := List.map_eq_singleton_iff.mp hsingle
  refine ⟨⟨fla.blocks p, ?_, ?_, ?_, congrArg Tile.used htile⟩, UInt64.toNat_inj.mp hbytes⟩
  · unfold FreeListAllocator.blockList
    rw [h.pointers_eq]
    rfl
  · exact UInt64.toNat_inj.mp (congrArg Tile.addr htile)
  · exact UInt64.toNat_inj.mp (congrArg Tile.size htile)

end Frees

/-! ## The main result -/

theorem totalSize_pos_of_live {fla : FreeListAllocator} {ps : List ℕ} {addr : UInt64}
    (h : ListOk fla ps) (hlive : IsLive fla addr) : 0 < fla.totalSize.toNat := by
  obtain ⟨len, hlen⟩ := isLive_iff.mp hlive
  rw [liveOf_eq h] at hlen
  have hpos := h.tiling.heap.pos _ hlen
  have hinside := h.tiling.heap.inside _ hlen
  omega

/-- **Freeing is independent of the order and complete**, in every reachable state. -/
theorem free_in_any_order (start total : UInt64) (htotal : total.toNat ≤ 2 ^ 63)
    (hend : start.toNat + total.toNat < 2 ^ 64) (cs : List HeapCall) (fla : FreeListAllocator)
    (hfla : (newFreeListAllocator start total).calls cs = fla) (addrs addrs' : List UInt64)
    (hnodup : addrs.Nodup) (hperm : addrs.Perm addrs') (hlive : ∀ a ∈ addrs, IsLive fla a) :
    (∀ r ∈ (freeEach addrs fla).1, r = .ok ()) ∧
      (∀ r ∈ (freeEach addrs' fla).1, r = .ok ()) ∧
      (freeEach addrs fla).2.blockList = (freeEach addrs' fla).2.blockList ∧
      (freeEach addrs fla).2.allocatedBytes = (freeEach addrs' fla).2.allocatedBytes ∧
      ((∀ a, IsLive fla a → a ∈ addrs) →
        (∃ b, (freeEach addrs fla).2.blockList = [b] ∧ b.addr = start ∧ b.size = total ∧
          b.isAllocated = false) ∧ (freeEach addrs fla).2.allocatedBytes = 0) := by
  obtain ⟨ps, hok, hhead, hstart, hsize⟩ := listOk_calls htotal hend cs
  rw [hfla] at hok hhead hstart hsize
  have hlive' : ∀ a ∈ addrs', IsLive fla a := fun a ha => hlive a (hperm.mem_iff.mpr ha)
  obtain ⟨hresults, ⟨ps₁, hshrunk⟩, hleft⟩ := frees_spec hok hnodup hlive
  obtain ⟨hresults', ⟨ps₂, hshrunk'⟩, hleft'⟩ := frees_spec hok (hperm.nodup_iff.mp hnodup) hlive'
  have hsame : (freeEach addrs fla).2.blockList = (freeEach addrs' fla).2.blockList ∧
      (freeEach addrs fla).2.allocatedBytes = (freeEach addrs' fla).2.allocatedBytes := by
    cases addrs with
    | nil =>
      rw [List.nil_perm.mp hperm]
      exact ⟨rfl, rfl⟩
    | cons a addrs =>
      have hpos := totalSize_pos_of_live hok (hlive a List.mem_cons_self)
      refine hshrunk.blockList_eq hshrunk' hok hpos ?_
      rw [hleft, hleft']
      simp only [(hperm.map UInt64.toNat).mem_iff]
  refine ⟨hresults, hresults', hsame.1, hsame.2, fun hall => ?_⟩
  have hempty : liveOf (freeEach addrs fla).2 = ∅ := by
    rw [hleft, Finset.filter_eq_empty_iff]
    intro i hi hkeep
    obtain ⟨b, hb, hused, rfl⟩ := mem_liveIntervals.mp hi
    obtain ⟨c, hc, rfl⟩ := List.mem_map.mp hb
    exact hkeep (List.mem_map_of_mem (hall c.addr ⟨c, hc, rfl, hused⟩))
  have hsingle := single_block hshrunk.ok (by simp [hshrunk.head, hhead]) hempty
  rwa [hshrunk.heapStart, hshrunk.totalSize, hstart, hsize] at hsingle

/-- Three neighbours, freed from the left and with the middle one first. -/
theorem free_in_any_order_three :
    (freeEach [4096, 4196, 4296] ((newFreeListAllocator 4096 300).calls
      [.malloc 100 false, .malloc 100 false, .malloc 100 false])).2.blockList =
    (freeEach [4196, 4296, 4096] ((newFreeListAllocator 4096 300).calls
      [.malloc 100 false, .malloc 100 false, .malloc 100 false])).2.blockList := by
  have hlive : ∀ a ∈ [4096, 4196, 4296], IsLive ((newFreeListAllocator 4096 300).calls
      [.malloc 100 false, .malloc 100 false, .malloc 100 false]) a := by
    rw [List.forall_mem_cons, List.forall_mem_cons, List.forall_mem_singleton]
    unfold IsLive
    decide
  exact (free_in_any_order 4096 300 (by decide) (by decide)
    [.malloc 100 false, .malloc 100 false, .malloc 100 false] _ rfl [4096, 4196, 4296]
    [4196, 4296, 4096] (by decide) (by decide) hlive).2.2.1

end OsSimulator.Analysis
