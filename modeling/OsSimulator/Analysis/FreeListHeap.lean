import Mathlib.Data.List.Induction
import OsSimulator.Interface.BlockList

/-!
# The free-list allocator is a heap of intervals

What a call can do is said once, by `malloc_cases` and `free_cases`.  From these:

* a call keeps the block list a well-formed tiling, if no sum wraps around
  (`blocksOk_call`); in a heap of at most `2 ^ 63` bytes none does (`sumFits_of_listOk`), so
  the list is well formed in every state that calls on a new allocator reach
  (`listOk_calls`);
* `freeList_wellFormed` reads the representation invariant off the tiling;
* `freeList_refines_intervalHeap` says which interval each call adds or removes.
-/

set_option autoImplicit false

namespace OsSimulator.Analysis

open Library Model Interface

/-! ## One call -/

section Calls

variable {fla : FreeListAllocator} {ps : List ℕ} {size : UInt64}

theorem toNat_pos_of_ne_zero (hsize : size ≠ 0) : 0 < size.toNat :=
  Nat.pos_of_ne_zero fun hzero => hsize (UInt64.toNat_inj.mp hzero)

theorem fitsAt_eq (p : ℕ) : fla.fitsAt size p = fits size.toNat (tileOf (fla.blocks p)) := by
  rw [Bool.eq_iff_iff, fits_iff]
  simp [FreeListAllocator.fitsAt, tileOf, UInt64.le_iff_toNat_le]

theorem firstFit_eq (h : BlocksOk fla ps) :
    fla.firstFit size = ps.find? fun p => fits size.toNat (tileOf (fla.blocks p)) := by
  unfold FreeListAllocator.firstFit
  rw [h.pointers_eq, funext fitsAt_eq]

theorem bestFit_eq (h : BlocksOk fla ps) :
    fla.bestFit size = (ps.filter fun p => fits size.toNat (tileOf (fla.blocks p))).argmin
      fun p => (tileOf (fla.blocks p)).size := by
  have hround : fla.bestFitRound size =
      bestStep (fun p => fits size.toNat (tileOf (fla.blocks p)))
        fun p => (tileOf (fla.blocks p)).size := by
    funext chosen curr
    cases chosen with
    | none => simp [FreeListAllocator.bestFitRound, bestStep, fitsAt_eq]
    | some c =>
      simp only [FreeListAllocator.bestFitRound, bestStep, fitsAt_eq]
      rfl
  unfold FreeListAllocator.bestFit
  rw [h.pointers_eq, hround, foldl_bestStep]

/-- The search finds the block that serves the request, or there is none. -/
theorem search_cases (h : BlocksOk fla ps) (hsize : 0 < size.toNat) (bestFit : Bool) :
    (∃ p ∈ ps, (if bestFit then fla.bestFit size else fla.firstFit size) = some p ∧
      fits size.toNat (tileOf (fla.blocks p)) = true ∧
      h.tiling.heap.Serves bestFit size.toNat (fla.blocks p).addr.toNat
        (fla.blocks p).size.toNat) ∨
    ((if bestFit then fla.bestFit size else fla.firstFit size) = none ∧
      ∀ a len, h.tiling.heap.IsGap a len → ¬ size.toNat ≤ len) := by
  cases bestFit with
  | false =>
    simp only [Bool.false_eq_true, if_false, firstFit_eq h]
    cases hfind : ps.find? fun p => fits size.toNat (tileOf (fla.blocks p)) with
    | some p =>
      have hfits : fits size.toNat (tileOf (fla.blocks p)) = true := by
        simpa using List.find?_some hfind
      exact .inl ⟨p, List.mem_of_find?_eq_some hfind, rfl, hfits,
        h.tiling.firstFit_find hsize hfind⟩
    | none =>
      refine .inr ⟨rfl, fun a len hgap hle => ?_⟩
      obtain ⟨p, hp, hfits, -⟩ := h.tiling.exists_fits hgap hle
      exact List.find?_eq_none.mp hfind p hp hfits
  | true =>
    simp only [if_true, bestFit_eq h]
    cases hmin : (ps.filter fun p => fits size.toNat (tileOf (fla.blocks p))).argmin
        fun p => (tileOf (fla.blocks p)).size with
    | some p =>
      obtain ⟨hp, hfits⟩ := List.mem_filter.mp (List.argmin_mem hmin)
      exact .inl ⟨p, hp, rfl, hfits, h.tiling.bestFit_argmin hsize hmin⟩
    | none =>
      refine .inr ⟨rfl, fun a len hgap hle => ?_⟩
      obtain ⟨p, hp, hfits, -⟩ := h.tiling.exists_fits hgap hle
      have hempty := List.filter_eq_nil_iff.mp (List.argmin_eq_none.mp hmin)
      exact hempty p hp hfits

/-- **What `Malloc` can do** with a request that is not empty. -/
theorem malloc_cases (h : BlocksOk fla ps) (hsize : size ≠ 0) (bestFit : Bool) :
    (∃ xs p ys, ps = xs ++ p :: ys ∧ (fla.blocks p).isAllocated = false ∧
      size.toNat ≤ (fla.blocks p).size.toNat ∧
      h.tiling.heap.Serves bestFit size.toNat (fla.blocks p).addr.toNat
        (fla.blocks p).size.toNat ∧
      fla.malloc size bestFit = (.ok (fla.blocks p).addr, fla.takeBlock p size)) ∨
    ((∀ a len, h.tiling.heap.IsGap a len → ¬ size.toNat ≤ len) ∧
      fla.malloc size bestFit = (.error (.outOfMemory size), fla)) := by
  have hpos := toNat_pos_of_ne_zero hsize
  unfold FreeListAllocator.malloc
  rw [if_neg hsize]
  rcases search_cases h hpos bestFit with ⟨p, hp, hchosen, hfits, hserves⟩ | ⟨hnone, hgaps⟩
  · obtain ⟨xs, ys, hps⟩ := List.append_of_mem hp
    obtain ⟨hfree, hle⟩ := fits_iff.mp hfits
    rw [hchosen]
    exact .inl ⟨xs, p, ys, hps, hfree, hle, hserves, rfl⟩
  · rw [hnone]
    exact .inr ⟨hgaps, rfl⟩

/-- An allocated block shares its address with no other block. -/
theorem used_addr_unique (h : BlocksOk fla ps) {p q : ℕ} (hp : p ∈ ps) (hq : q ∈ ps)
    (hused : (fla.blocks p).isAllocated = true)
    (haddr : (fla.blocks q).addr = (fla.blocks p).addr) :
    tileOf (fla.blocks q) = tileOf (fla.blocks p) := by
  have hp' : tileOf (fla.blocks p) ∈ tilesAt fla.blocks ps := List.mem_map_of_mem hp
  have hq' : tileOf (fla.blocks q) ∈ tilesAt fla.blocks ps := List.mem_map_of_mem hq
  have hpos : 0 < (tileOf (fla.blocks p)).size := h.tiling.pos _ hp' (.inl hused)
  have hbounds := h.tiling.tiles.mem_bounds hp'
  have hpos' : 0 < (tileOf (fla.blocks q)).size := h.tiling.pos _ hq' (.inr (by omega))
  have haddr' : (tileOf (fla.blocks q)).addr = (tileOf (fla.blocks p)).addr :=
    congrArg UInt64.toNat haddr
  refine h.tiling.tiles.covers_unique (x := (tileOf (fla.blocks p)).addr) hq' hp' ?_ ?_
  · unfold Tile.Covers
    omega
  · unfold Tile.Covers
    omega

/-- **What `Free` can do.** -/
theorem free_cases (h : BlocksOk fla ps) (addr : UInt64) :
    (∃ xs p ys, ps = xs ++ p :: ys ∧ (fla.blocks p).isAllocated = true ∧
      (fla.blocks p).addr = addr ∧ fla.free addr = (.ok (), fla.releaseBlock p)) ∨
    ((∀ p ∈ ps, (fla.blocks p).addr = addr → (fla.blocks p).isAllocated = false) ∧
      ∃ e, fla.free addr = (.error e, fla)) := by
  unfold FreeListAllocator.free
  rw [h.pointers_eq]
  cases hfind : ps.find? fun p => (fla.blocks p).addr == addr with
  | none =>
    refine .inr ⟨fun p hp haddr => ?_, _, rfl⟩
    have := List.find?_eq_none.mp hfind p hp
    simp [haddr] at this
  | some p =>
    have hp := List.mem_of_find?_eq_some hfind
    have haddr : (fla.blocks p).addr = addr := by simpa using List.find?_some hfind
    cases hused : (fla.blocks p).isAllocated with
    | true =>
      obtain ⟨xs, ys, hps⟩ := List.append_of_mem hp
      exact .inl ⟨xs, p, ys, hps, hused, haddr, by simp [hused]⟩
    | false =>
      refine .inr ⟨fun q hq hqaddr => ?_, .doubleFree addr, by simp [hused]⟩
      by_contra hqused
      rw [Bool.not_eq_false] at hqused
      have htile := used_addr_unique h hq hp hqused (haddr.trans hqaddr.symm)
      have : (fla.blocks p).isAllocated = (fla.blocks q).isAllocated := congrArg Tile.used htile
      rw [hused, hqused] at this
      cases this

end Calls

/-! ## Runs -/

section Runs

variable {fla : FreeListAllocator} {ps : List ℕ}

/-- In a call of `Malloc` that succeeds, the sum before the split does not wrap around. -/
def SumFits (fla : FreeListAllocator) : HeapCall → Prop
  | .malloc size bestFit =>
    (∃ addr, (fla.malloc size bestFit).1 = .ok addr) → size.toNat + 16 < 2 ^ 64
  | .free _ => True

/-- A call keeps the block list well formed, its head, and the place of the heap. -/
theorem blocksOk_call (h : BlocksOk fla ps) {c : HeapCall} (hfits : SumFits fla c) :
    ∃ ps', BlocksOk (fla.call c) ps' ∧ (fla.call c).head = fla.head ∧
      (fla.call c).heapStart = fla.heapStart ∧ (fla.call c).totalSize = fla.totalSize := by
  cases c with
  | malloc size bestFit =>
    by_cases hsize : size = 0
    · have hcall : fla.call (.malloc size bestFit) = fla := by
        simp [FreeListAllocator.call, FreeListAllocator.malloc, hsize]
      rw [hcall]
      exact ⟨ps, h, rfl, rfl, rfl⟩
    have hpos := toNat_pos_of_ne_zero hsize
    rcases malloc_cases h hsize bestFit with ⟨xs, p, ys, rfl, hfree, hle, -, heq⟩ | ⟨-, heq⟩
    · have hsmall := hfits ⟨_, congrArg Prod.fst heq⟩
      obtain ⟨ps', hok, -⟩ := h.takeBlock hfree hpos hle hsmall
      have hcall : fla.call (.malloc size bestFit) = fla.takeBlock p size := congrArg Prod.snd heq
      rw [hcall]
      exact ⟨ps', hok, takeBlock_fields p size fla⟩
    · have hcall : fla.call (.malloc size bestFit) = fla := congrArg Prod.snd heq
      rw [hcall]
      exact ⟨ps, h, rfl, rfl, rfl⟩
  | free addr =>
    rcases free_cases h addr with ⟨xs, p, ys, rfl, hused, -, heq⟩ | ⟨-, e, heq⟩
    · obtain ⟨ps', hok, -⟩ := h.releaseBlock hused
      have hcall : fla.call (.free addr) = fla.releaseBlock p := congrArg Prod.snd heq
      rw [hcall]
      exact ⟨ps', hok, rfl, rfl, rfl⟩
    · have hcall : fla.call (.free addr) = fla := congrArg Prod.snd heq
      rw [hcall]
      exact ⟨ps, h, rfl, rfl, rfl⟩

/-- A request that fits a block of a heap of at most `2 ^ 63` bytes is small. -/
theorem sumFits_of_listOk (h : ListOk fla ps) (c : HeapCall) : SumFits fla c := by
  cases c with
  | free addr => trivial
  | malloc size bestFit =>
    rintro ⟨addr, hok⟩
    by_cases hsize : size = 0
    · subst hsize
      decide
    rcases malloc_cases h.toBlocksOk hsize bestFit with
      ⟨xs, p, ys, rfl, -, hle, -, -⟩ | ⟨-, heq⟩
    · have hbounds := h.toBlocksOk.block_bounds (p := p) (by simp)
      have htotal := h.total_le
      omega
    · rw [heq] at hok
      cases hok

theorem listOk_call (h : ListOk fla ps) (c : HeapCall) :
    ∃ ps', ListOk (fla.call c) ps' ∧ (fla.call c).head = fla.head ∧
      (fla.call c).heapStart = fla.heapStart ∧ (fla.call c).totalSize = fla.totalSize := by
  obtain ⟨ps', hok, hhead, hstart, htotal⟩ := blocksOk_call h.toBlocksOk (sumFits_of_listOk h c)
  refine ⟨ps', ⟨hok, ?_, ?_⟩, hhead, hstart, htotal⟩
  · rw [hstart, htotal]
    exact h.heapEnd_lt
  · rw [htotal]
    exact h.total_le

theorem blocksOk_new {start total : UInt64} (hend : start.toNat + total.toNat ≤ 2 ^ 64) :
    BlocksOk (newFreeListAllocator start total) [0] := by
  refine ⟨⟨⟨rfl, rfl, trivial⟩, List.nodup_singleton 0⟩, rfl, ?_, ?_, rfl, hend⟩
  · intro p hp
    rw [List.mem_singleton.mp hp]
    exact Nat.zero_lt_one
  · refine ⟨⟨rfl, rfl⟩, List.isChain_singleton _, ?_⟩
    intro b hb hcond
    rw [List.mem_singleton.mp hb] at hcond ⊢
    rcases hcond with hused | hpos
    · cases hused
    · exact hpos

theorem calls_concat (cs : List HeapCall) (c : HeapCall) :
    fla.calls (cs ++ [c]) = (fla.calls cs).call c := by
  simp [FreeListAllocator.calls]

/-- **Every reachable state is well formed.** -/
theorem listOk_calls {start total : UInt64} (htotal : total.toNat ≤ 2 ^ 63)
    (hend : start.toNat + total.toNat < 2 ^ 64) (cs : List HeapCall) :
    ∃ ps, ListOk ((newFreeListAllocator start total).calls cs) ps ∧
      ((newFreeListAllocator start total).calls cs).head = some 0 ∧
      ((newFreeListAllocator start total).calls cs).heapStart = start ∧
      ((newFreeListAllocator start total).calls cs).totalSize = total := by
  induction cs using List.reverseRecOn with
  | nil => exact ⟨[0], ⟨blocksOk_new hend.le, hend, htotal⟩, rfl, rfl, rfl⟩
  | append_singleton cs c ih =>
    obtain ⟨ps, hok, hhead, hstart, hsize⟩ := ih
    obtain ⟨ps', hok', hhead', hstart', hsize'⟩ := listOk_call hok c
    rw [calls_concat]
    exact ⟨ps', hok', hhead'.trans hhead, hstart'.trans hstart, hsize'.trans hsize⟩

end Runs

/-! ## The representation invariant -/

/-- The blocks that a loop from `Head` visits, and how they are linked. -/
structure WellFormed (fla : FreeListAllocator) : Prop where
  /-- The loop starts at `Head`, stays in the list, and ends at its last block. -/
  head : fla.head = fla.pointers.head?
  closed : ∀ p ∈ fla.pointers, ∀ q, (fla.blocks p).next = some q → q ∈ fla.pointers
  last : ∀ p ∈ fla.pointers.getLast?, (fla.blocks p).next = none
  nodup : fla.pointers.Nodup
  /-- The back links are the reverse of the links. -/
  prev_iff : ∀ p ∈ fla.pointers, ∀ q ∈ fla.pointers,
    (fla.blocks q).prev = some p ↔ (fla.blocks p).next = some q
  prev_closed : ∀ q ∈ fla.pointers, ∀ p, (fla.blocks q).prev = some p → p ∈ fla.pointers
  starts : fla.blockList.head?.map BlockHeader.addr = some fla.heapStart
  adjacent : ∀ xs b c ys, fla.blockList = xs ++ b :: c :: ys →
    b.addr.toNat + b.size.toNat = c.addr.toNat
  sizes : (fla.blockList.map fun b => b.size.toNat).sum = fla.totalSize.toNat
  coalesced : ∀ xs b c ys, fla.blockList = xs ++ b :: c :: ys →
    ¬ (b.isAllocated = false ∧ c.isAllocated = false)
  allocated : fla.allocatedBytes.toNat =
    ((fla.blockList.filter BlockHeader.isAllocated).map fun b => b.size.toNat).sum

section Representation

variable {fla : FreeListAllocator} {ps : List ℕ}

theorem tilesAt_eq (s : Store) (ps : List ℕ) : tilesAt s ps = (ps.map s).map tileOf := by
  rw [tilesAt, List.map_map]
  rfl

theorem usedBytes_map (bs : List BlockHeader) :
    usedBytes (bs.map tileOf) =
      ((bs.filter BlockHeader.isAllocated).map fun b => b.size.toNat).sum := by
  induction bs with
  | nil => rfl
  | cons b bs ih =>
    rw [List.map_cons, usedBytes_cons, ih]
    cases hb : b.isAllocated <;> simp [tileOf, hb]

theorem wellFormed_of_listOk (h : ListOk fla ps) {p : ℕ} (hhead : fla.head = some p) :
    WellFormed fla := by
  have hps := h.pointers_eq
  have hlist := h.toBlocksOk.blockList_eq
  have htiling := h.tiling
  rw [tilesAt_eq, ← hlist] at htiling
  have hbytes := h.bytes
  rw [tilesAt_eq, ← hlist, usedBytes_map] at hbytes
  obtain ⟨qs, rfl⟩ := List.head?_eq_some_iff.mp (h.head.symm.trans hhead)
  refine ⟨?_, ?_, ?_, ?_, ?_, ?_, ?_, ?_, ?_, ?_, hbytes⟩
  · rw [hps, h.head]
  · rw [hps]
    exact fun p hp q hnext => h.linked.mem_of_next hp hnext
  · intro p hp
    rw [hps] at hp
    obtain ⟨xs, hxs⟩ := List.getLast?_eq_some_iff.mp hp
    have hchain := h.toChainOk
    rw [hxs] at hchain
    exact hchain.next_eq
  · rw [hps]
    exact h.nodup
  · rw [hps]
    exact fun p hp q hq => h.linked.prev_iff hp hq
  · rw [hps]
    exact fun q hq p hprev => h.linked.mem_of_prev hq hprev
  · have hfirst : (fla.blocks p).addr.toNat = fla.heapStart.toNat := h.tiling.tiles.1
    rw [hlist]
    exact congrArg some (UInt64.toNat_inj.mp hfirst)
  · intro xs b c ys heq
    have htiles := htiling.tiles
    rw [heq, List.map_append] at htiles
    exact (tiles_middle.mp htiles).2.1.symm
  · have hsum := htiling.tiles.sum_size
    rw [List.map_map] at hsum
    exact Nat.add_left_cancel hsum
  · intro xs b c ys heq hfree
    have hcoal := htiling.coalesced
    rw [heq, List.map_append] at hcoal
    have hpair := (coalesced_cons.mp (coalesced_append.mp hcoal).2.1).1 (tileOf c) rfl
    simp [tileOf, hfree] at hpair

/-- **Representation invariant**, in every state that calls on a new allocator reach. -/
theorem freeList_wellFormed (start total : UInt64) (htotal : total.toNat ≤ 2 ^ 63)
    (hend : start.toNat + total.toNat < 2 ^ 64) (cs : List HeapCall) :
    WellFormed ((newFreeListAllocator start total).calls cs) ∧
      ((newFreeListAllocator start total).calls cs).heapStart = start ∧
      ((newFreeListAllocator start total).calls cs).totalSize = total := by
  obtain ⟨ps, hok, hhead, hstart, hsize⟩ := listOk_calls htotal hend cs
  exact ⟨wellFormed_of_listOk hok hhead, hstart, hsize⟩

theorem freeList_wellFormed_threeCalls :
    (1024 : UInt64).toNat ≤ 2 ^ 63 ∧ (4096 : UInt64).toNat + (1024 : UInt64).toNat < 2 ^ 64 ∧
      WellFormed ((newFreeListAllocator 4096 1024).calls
        [.malloc 100 false, .malloc 50 true, .free 4096]) := by
  refine ⟨by decide, by decide, ?_⟩
  exact (freeList_wellFormed 4096 1024 (by decide) (by decide) _).1

end Representation

/-! ## Refinement of the interval heap -/

/-- The intervals of the allocated blocks. -/
def liveOf (fla : FreeListAllocator) : Finset (ℕ × ℕ) := liveIntervals (fla.blockList.map tileOf)

section Refinement

variable {start total : ℕ} (heap : IntervalHeap start total) (fla : FreeListAllocator)

/-- What a call of `Malloc` does to the live intervals. -/
structure MallocServes (size : UInt64) (bestFit : Bool) : Prop where
  succeeds_iff : (∃ addr, (fla.malloc size bestFit).1 = .ok addr) ↔
    ∃ a len, heap.IsGap a len ∧ size.toNat ≤ len
  /-- The returned address is the start of the gap that serves the request.  The interval
  of `k` bytes from there on lies in the heap, beside all live ones, and becomes live. -/
  places : ∀ addr, (fla.malloc size bestFit).1 = .ok addr →
    (∃ len, heap.Serves bestFit size.toNat addr.toNat len) ∧
    ∃ k, size.toNat ≤ k ∧ start ≤ addr.toNat ∧ addr.toNat + k ≤ start + total ∧
      (∀ i ∈ heap.live, i.1 + i.2 ≤ addr.toNat ∨ addr.toNat + k ≤ i.1) ∧
      liveOf (fla.malloc size bestFit).2 = insert (addr.toNat, k) heap.live
  error_unchanged : ∀ e, (fla.malloc size bestFit).1 = .error e →
    (fla.malloc size bestFit).2.blockList = fla.blockList ∧
      (fla.malloc size bestFit).2.allocatedBytes = fla.allocatedBytes

/-- What a call of `Free` does to the live intervals. -/
structure FreeRemoves (addr : UInt64) : Prop where
  succeeds_iff : (fla.free addr).1 = .ok () ↔ ∃ len, (addr.toNat, len) ∈ heap.live
  removes : ∀ len, (addr.toNat, len) ∈ heap.live →
    liveOf (fla.free addr).2 = heap.live.erase (addr.toNat, len)
  error_unchanged : ∀ e, (fla.free addr).1 = .error e →
    (fla.free addr).2.blockList = fla.blockList ∧
      (fla.free addr).2.allocatedBytes = fla.allocatedBytes

variable {fla} {ps : List ℕ}

theorem liveOf_eq (h : ListOk fla ps) : liveOf fla = h.tiling.heap.live := by
  show liveIntervals _ = liveIntervals _
  rw [h.toBlocksOk.blockList_eq, ← tilesAt_eq]

theorem mallocServes_of_listOk (h : ListOk fla ps) {size : UInt64} (hsize : size ≠ 0)
    (bestFit : Bool) : MallocServes h.tiling.heap fla size bestFit := by
  have hpos := toNat_pos_of_ne_zero hsize
  rcases malloc_cases h.toBlocksOk hsize bestFit with
    ⟨xs, p, ys, rfl, hfree, hle, hserves, heq⟩ | ⟨hgaps, heq⟩
  · obtain ⟨ps', hok, htiles⟩ := h.takeBlock hfree hpos hle
    have hrange := hserves.gap.1.toFreeRange
    obtain ⟨henough, hwithin⟩ := placedSize_bounds (b := tileOf (fla.blocks p)) 16 hle
    have hlive : liveOf (fla.takeBlock p size) =
        insert ((fla.blocks p).addr.toNat, placedSize 16 size.toNat (tileOf (fla.blocks p)))
          h.tiling.heap.live := by
      rw [liveOf_eq hok]
      show liveIntervals _ = insert _ (liveIntervals _)
      rw [htiles, liveIntervals_place _ _ _ _ hfree, tilesAt_append, tilesAt_cons]
      rfl
    constructor
    · rw [heq]
      exact ⟨fun _ => ⟨_, _, hserves.gap⟩, fun _ => ⟨_, rfl⟩⟩
    · intro addr haddr
      rw [heq] at haddr ⊢
      cases haddr
      refine ⟨⟨_, hserves⟩, _, henough, hrange.lower, ?_, ?_, hlive⟩
      · exact le_trans (Nat.add_le_add_left hwithin _) hrange.upper
      · intro i hi
        refine (hrange.apart hi).imp_right fun hright => ?_
        exact le_trans (Nat.add_le_add_left hwithin _) hright
    · intro e he
      rw [heq] at he
      cases he
  · constructor
    · rw [heq]
      constructor
      · rintro ⟨addr, haddr⟩
        cases haddr
      · rintro ⟨a, len, hgap, hlen⟩
        exact absurd hlen (hgaps a len hgap)
    · intro addr haddr
      rw [heq] at haddr
      cases haddr
    · intro e _
      rw [heq]
      exact ⟨rfl, rfl⟩

theorem mem_live_iff (h : ListOk fla ps) {a len : ℕ} :
    (a, len) ∈ h.tiling.heap.live ↔ ∃ p ∈ ps, (fla.blocks p).isAllocated = true ∧
      (fla.blocks p).addr.toNat = a ∧ (fla.blocks p).size.toNat = len := by
  show (a, len) ∈ liveIntervals _ ↔ _
  rw [mem_liveIntervals]
  simp [tilesAt, tileOf]

theorem freeRemoves_of_listOk (h : ListOk fla ps) (addr : UInt64) :
    FreeRemoves h.tiling.heap fla addr := by
  rcases free_cases h.toBlocksOk addr with ⟨xs, p, ys, rfl, hused, rfl, heq⟩ | ⟨hfree, e, heq⟩
  · obtain ⟨ps', hok, -, htiles⟩ := h.releaseBlock hused
    have hp : p ∈ xs ++ p :: ys := by simp
    constructor
    · rw [heq]
      refine ⟨fun _ => ⟨_, (mem_live_iff h).mpr ⟨p, hp, hused, rfl, rfl⟩⟩, fun _ => rfl⟩
    · intro len hlen
      obtain ⟨q, hq, -, haddr, rfl⟩ := (mem_live_iff h).mp hlen
      have htile := used_addr_unique h.toBlocksOk hp hq hused (UInt64.toNat_inj.mp haddr)
      have hlen : (fla.blocks q).size.toNat = (fla.blocks p).size.toNat := congrArg Tile.size htile
      rw [heq, liveOf_eq hok, hlen]
      show liveIntervals _ = (liveIntervals _).erase _
      have htiling := h.toBlocksOk.tiling_middle
      rw [htiles, htiling.liveIntervals_release hused, tilesAt_append, tilesAt_cons]
      rfl
    · intro e he
      rw [heq] at he
      cases he
  · have hnone : ¬ ∃ len, (addr.toNat, len) ∈ h.tiling.heap.live := by
      rintro ⟨len, hlen⟩
      obtain ⟨p, hp, hused, haddr, -⟩ := (mem_live_iff h).mp hlen
      rw [hfree p hp (UInt64.toNat_inj.mp haddr)] at hused
      cases hused
    constructor
    · rw [heq]
      exact ⟨fun hok => (by cases hok), fun hlen => absurd hlen hnone⟩
    · intro len hlen
      exact absurd ⟨len, hlen⟩ hnone
    · intro e _
      rw [heq]
      exact ⟨rfl, rfl⟩

/-- **The allocator refines a heap of disjoint live intervals**: in every reachable state
the allocated blocks are the live intervals of a heap, and every call does to them what
the mode asks for. -/
theorem freeList_refines_intervalHeap (start total : UInt64) (htotal : total.toNat ≤ 2 ^ 63)
    (hend : start.toNat + total.toNat < 2 ^ 64) (cs : List HeapCall) :
    ∃ heap : IntervalHeap start.toNat total.toNat,
      heap.live = liveOf ((newFreeListAllocator start total).calls cs) ∧
      (∀ size bestFit, 0 < size →
        MallocServes heap ((newFreeListAllocator start total).calls cs) size bestFit) ∧
      ∀ addr, FreeRemoves heap ((newFreeListAllocator start total).calls cs) addr := by
  obtain ⟨ps, hok, -, hstart, hsize⟩ := listOk_calls htotal hend cs
  generalize (newFreeListAllocator start total).calls cs = fla at hok hstart hsize ⊢
  subst hstart hsize
  refine ⟨hok.tiling.heap, (liveOf_eq hok).symm, ?_, freeRemoves_of_listOk hok⟩
  intro size bestFit hpos
  exact mallocServes_of_listOk hok (UInt64.pos_iff_ne_zero.mp hpos) bestFit

theorem freeList_refines_intervalHeap_fragmented :
    ∃ heap : IntervalHeap (4096 : UInt64).toNat (1024 : UInt64).toNat,
      heap.live = liveOf ((newFreeListAllocator 4096 1024).calls
        [.malloc 100 false, .malloc 50 true, .free 4096]) ∧
      MallocServes heap ((newFreeListAllocator 4096 1024).calls
        [.malloc 100 false, .malloc 50 true, .free 4096]) 60 true := by
  obtain ⟨heap, hlive, hmalloc, -⟩ := freeList_refines_intervalHeap 4096 1024 (by decide) (by decide)
    [.malloc 100 false, .malloc 50 true, .free 4096]
  exact ⟨heap, hlive, hmalloc 60 true (by decide)⟩

end Refinement

end OsSimulator.Analysis
