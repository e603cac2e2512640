import OsSimulator.Library.IntervalHeap
import OsSimulator.Model.FreeList

/-!
# From block headers to tiles

`ChainOk s ps` says that the pointers `ps` form a doubly linked list in the store `s`, and
`tilesAt s ps` reads the tiles off it.  Each pointer operation of the allocator is a list
operation on the tiles:

* `coalesceNext` is `mergeNext` and `coalescePrev` is `mergeLast`, both by
  `ChainOk.absorb`, so that freeing a block is `release` (`BlocksOk.releaseBlock`);
* `splitBlock` and the flag that follows are `place`, for requests below `2 ^ 64 - 16`
  (`BlocksOk.takeBlock`).

Sums of addresses and sizes do not wrap around, because the tiling ends at `2 ^ 64` at the
latest (`BlocksOk`).  `ListOk` is the same for heaps of at most `2 ^ 63` bytes, where every
request that fits a block is below `2 ^ 64 - 16`.
-/

set_option autoImplicit false

namespace OsSimulator.Interface

open Library Model

/-- A block as a range of the heap. -/
def tileOf (b : BlockHeader) : Tile := ⟨b.addr.toNat, b.size.toNat, b.isAllocated⟩

/-- The ranges of the blocks at `ps`. -/
def tilesAt (s : Store) (ps : List ℕ) : List Tile := ps.map fun p => tileOf (s p)

/-- The blocks at `ps` are doubly linked in this order. -/
structure ChainOk (s : Store) (ps : List ℕ) : Prop where
  linked : Linked (fun p => (s p).next) (fun p => (s p).prev) none ps none
  nodup : ps.Nodup

theorem not_mem_head_of_mem_tail {ys : List ℕ} {y : ℕ} (h : ys.Nodup) (hy : y ∈ ys.tail) :
    y ∉ ys.head? := by
  cases ys with
  | nil => cases hy
  | cons z ys =>
    rintro ⟨⟩
    exact (List.nodup_cons.mp h).1 hy

section Writes

variable {s : Store} {p q : ℕ} {o : Option ℕ} {f : BlockHeader → BlockHeader}

theorem modify_same : s.modify p f p = f (s p) := Function.update_self ..

theorem modify_ne (h : q ≠ p) : s.modify p f q = s q := Function.update_of_ne h ..

theorem modifyUnlessNil_mem (h : o = some p) : s.modifyUnlessNil o f p = f (s p) := by
  subst h
  exact modify_same

theorem modifyUnlessNil_ne (h : ∀ p ∈ o, q ≠ p) : s.modifyUnlessNil o f q = s q := by
  cases o with
  | none => rfl
  | some p => exact modify_ne (h p rfl)

theorem tilesAt_congr {s' : Store} {ps : List ℕ} (h : ∀ p ∈ ps, tileOf (s' p) = tileOf (s p)) :
    tilesAt s' ps = tilesAt s ps :=
  List.map_congr_left h

theorem tilesAt_append {xs ys : List ℕ} : tilesAt s (xs ++ ys) = tilesAt s xs ++ tilesAt s ys :=
  List.map_append

theorem tilesAt_cons {ps : List ℕ} : tilesAt s (p :: ps) = tileOf (s p) :: tilesAt s ps := rfl

/-- Writes that keep the links keep the list. -/
theorem ChainOk.congr {s' : Store} {ps : List ℕ} (h : ChainOk s ps)
    (hlinks : ∀ p ∈ ps, (s' p).next = (s p).next ∧ (s' p).prev = (s p).prev) : ChainOk s' ps :=
  ⟨h.linked.congr hlinks, h.nodup⟩

end Writes

/-! ## Merging -/

variable {a e : ℕ}

section Merging

variable {s : Store} {xs ys : List ℕ} {p q : ℕ}

theorem ChainOk.next_eq (h : ChainOk s (xs ++ p :: ys)) : (s p).next = ys.head? := by
  obtain ⟨-, -, hnext, -⟩ := linked_append.mp h.linked
  simpa using hnext

theorem ChainOk.prev_eq (h : ChainOk s (xs ++ p :: ys)) : (s p).prev = xs.getLast? := by
  obtain ⟨-, hprev, -⟩ := linked_append.mp h.linked
  simpa using hprev

theorem absorb_keep (hhead : ∀ y ∈ (s q).next, p ≠ y) :
    s.absorb p q p = { s p with size := (s p).size + (s q).size, next := (s q).next } := by
  unfold Store.absorb
  rw [modifyUnlessNil_ne hhead, modify_same]

theorem absorb_next {y : ℕ} (hy : (s q).next = some y) (hne : y ≠ p) :
    s.absorb p q y = { s y with prev := some p } := by
  unfold Store.absorb
  rw [modifyUnlessNil_mem hy, modify_ne hne]

theorem absorb_other {x : ℕ} (hp : x ≠ p) (hhead : ∀ y ∈ (s q).next, x ≠ y) :
    s.absorb p q x = s x := by
  unfold Store.absorb
  rw [modifyUnlessNil_ne hhead, modify_ne hp]

/-- Apart from the kept block, `absorb` writes a back link only. -/
theorem absorb_tile {x : ℕ} (hp : x ≠ p) :
    (s.absorb p q x).next = (s x).next ∧ tileOf (s.absorb p q x) = tileOf (s x) := by
  by_cases hx : (s q).next = some x
  · rw [absorb_next hx hp]
    exact ⟨rfl, rfl⟩
  · rw [absorb_other hp]
    · exact ⟨rfl, rfl⟩
    · rintro y hy rfl
      exact hx hy

/-- **Absorbing** unlinks the second block, and gives its bytes to the first. -/
theorem ChainOk.absorb (h : ChainOk s (xs ++ p :: q :: ys))
    (hwrap : (s p).size.toNat + (s q).size.toNat < 2 ^ 64) :
    ChainOk (s.absorb p q) (xs ++ p :: ys) ∧
      tilesAt (s.absorb p q) xs = tilesAt s xs ∧
      tilesAt (s.absorb p q) (p :: ys) =
        ⟨(s p).addr.toNat, (s p).size.toNat + (s q).size.toNat, (s p).isAllocated⟩ ::
          tilesAt s ys := by
  have hnext : (s q).next = ys.head? := by
    have hq : ChainOk s ((xs ++ [p]) ++ q :: ys) := by simpa using h
    exact hq.next_eq
  have hnodup := h.nodup
  simp only [List.nodup_append, List.nodup_cons, List.mem_cons, not_or] at hnodup
  obtain ⟨hxs, ⟨⟨hpq, hpys⟩, -, hys⟩, hapart⟩ := hnodup
  have hhead (y : ℕ) (hy : y ∈ (s q).next) : y ∈ ys := List.mem_of_mem_head? (hnext ▸ hy)
  have hkeep := absorb_keep (s := s) (p := p) (q := q) fun y hy heq => hpys (heq ▸ hhead y hy)
  have hleft (x : ℕ) (hx : x ∈ xs) : s.absorb p q x = s x := by
    refine absorb_other (hapart x hx p (.inl rfl)) fun y hy => hapart x hx y ?_
    exact .inr (.inr (hhead y hy))
  have hright (y : ℕ) (hy : y ∈ ys) : y ≠ p := fun heq => hpys (heq ▸ hy)
  refine ⟨⟨h.linked.remove_after ?_ ?_ ?_ ?_ ?_, h.nodup.sublist (by simp)⟩, ?_, ?_⟩
  · intro x hx
    rw [hleft x hx]
    exact ⟨rfl, rfl⟩
  · rw [hkeep]
    exact ⟨rfl, rfl⟩
  · intro y hy
    rw [absorb_next (hnext.trans hy) (hright y (List.mem_of_mem_head? hy))]
  · intro y hy
    exact (absorb_tile (hright y hy)).1
  · intro y hy
    have hmem := List.mem_of_mem_tail hy
    rw [absorb_other (hright y hmem)]
    rintro z hz rfl
    exact not_mem_head_of_mem_tail hys hy (hnext ▸ hz)
  · exact tilesAt_congr fun x hx => congrArg tileOf (hleft x hx)
  · rw [tilesAt_cons, hkeep, tilesAt_congr fun y hy => (absorb_tile (hright y hy)).2]
    simp only [tileOf, UInt64.toNat_add, Nat.mod_eq_of_lt hwrap]

theorem sizes_lt (h : Tiles a (tilesAt s (xs ++ p :: q :: ys)) e) (he : e < a + 2 ^ 64) :
    (s p).size.toNat + (s q).size.toNat < 2 ^ 64 := by
  have hsum := h.sum_size
  simp only [tilesAt, List.map_append, List.map_cons, List.sum_append, List.sum_cons, tileOf] at hsum
  omega

/-- Coalescing with the next block is `mergeNext`. -/
theorem ChainOk.coalesceNext (h : ChainOk s (xs ++ p :: ys))
    (htiles : Tiles a (tilesAt s (xs ++ p :: ys)) e) (he : e < a + 2 ^ 64) :
    ∃ ys', ys'.Sublist ys ∧ ChainOk (s.coalesceNext p) (xs ++ p :: ys') ∧
      tilesAt (s.coalesceNext p) xs = tilesAt s xs ∧
      tilesAt (s.coalesceNext p) (p :: ys') = mergeNext (tileOf (s p)) (tilesAt s ys) := by
  have hnext := h.next_eq
  cases ys with
  | nil =>
    have hstep : s.coalesceNext p = s := by simp [Store.coalesceNext, hnext]
    rw [hstep]
    exact ⟨[], List.Sublist.refl _, h, rfl, rfl⟩
  | cons q ys =>
    cases hq : (s q).isAllocated with
    | true =>
      have hstep : s.coalesceNext p = s := by simp [Store.coalesceNext, hnext, hq]
      rw [hstep]
      refine ⟨q :: ys, List.Sublist.refl _, h, rfl, ?_⟩
      simp [mergeNext, tileOf, tilesAt, hq]
    | false =>
      have hstep : s.coalesceNext p = s.absorb p q := by simp [Store.coalesceNext, hnext, hq]
      obtain ⟨hchain, hleft, hright⟩ := h.absorb (sizes_lt htiles he)
      rw [hstep]
      refine ⟨ys, List.sublist_cons_self q ys, hchain, hleft, ?_⟩
      rw [hright, tilesAt_cons]
      simp [mergeNext, tileOf, hq]

/-- Coalescing a free block with the previous one is `mergeLast`. -/
theorem ChainOk.coalescePrev (h : ChainOk s (xs ++ p :: ys))
    (htiles : Tiles a (tilesAt s (xs ++ p :: ys)) e) (he : e < a + 2 ^ 64)
    (hfree : (s p).isAllocated = false) :
    ∃ ps, ps.Sublist (xs ++ p :: ys) ∧ ps.head? = (xs ++ p :: ys).head? ∧
      ChainOk (s.coalescePrev p) ps ∧
      tilesAt (s.coalescePrev p) ps = mergeLast (tilesAt s xs) (tilesAt s (p :: ys)) := by
  have hprev := h.prev_eq
  rcases List.eq_nil_or_concat' xs with rfl | ⟨xs, q, rfl⟩
  · have hstep : s.coalescePrev p = s := by simp [Store.coalescePrev, hprev]
    rw [hstep]
    exact ⟨p :: ys, List.Sublist.refl _, rfl, h, rfl⟩
  · rw [List.getLast?_concat] at hprev
    rw [tilesAt_append]
    cases hq : (s q).isAllocated with
    | true =>
      have hstep : s.coalescePrev p = s := by simp [Store.coalescePrev, hprev, hq]
      rw [hstep]
      refine ⟨_, List.Sublist.refl _, rfl, h, ?_⟩
      simp [mergeLast, tileOf, tilesAt, hq]
    | false =>
      have hstep : s.coalescePrev p = s.absorb q p := by simp [Store.coalescePrev, hprev, hq]
      rw [List.append_assoc] at h htiles
      obtain ⟨hchain, hleft, hright⟩ := ChainOk.absorb h (sizes_lt htiles he)
      rw [hstep]
      refine ⟨xs ++ q :: ys, by simp, by simp, hchain, ?_⟩
      rw [tilesAt_append, hleft, hright, tilesAt_cons]
      simp [mergeLast, mergeNext, tileOf, tilesAt, hq, hfree]

end Merging

/-! ## Splitting -/

section Splitting

variable {s : Store} {xs ys : List ℕ} {p r : ℕ} {size : UInt64} {f : BlockHeader → BlockHeader}

/-- A write to one block that keeps its links. -/
theorem ChainOk.modify (h : ChainOk s (xs ++ p :: ys))
    (hf : ∀ b, (f b).next = b.next ∧ (f b).prev = b.prev) :
    ChainOk (s.modify p f) (xs ++ p :: ys) ∧ tilesAt (s.modify p f) xs = tilesAt s xs ∧
      tilesAt (s.modify p f) (p :: ys) = tileOf (f (s p)) :: tilesAt s ys := by
  have hnodup := h.nodup
  simp only [List.nodup_append, List.nodup_cons, List.mem_cons] at hnodup
  obtain ⟨-, ⟨hpys, -⟩, hapart⟩ := hnodup
  refine ⟨h.congr ?_, tilesAt_congr ?_, ?_⟩
  · intro x _
    by_cases hx : x = p
    · subst hx
      rw [modify_same]
      exact hf _
    · rw [modify_ne hx]
      exact ⟨rfl, rfl⟩
  · intro x hx
    rw [modify_ne (hapart x hx p (.inl rfl))]
  · rw [tilesAt_cons, modify_same, tilesAt_congr]
    intro y hy
    have hne : y ≠ p := fun heq => hpys (heq ▸ hy)
    rw [modify_ne hne]

theorem splitBlock_chosen (size : UInt64) (hpr : p ≠ r) (hnext : ∀ y ∈ (s p).next, p ≠ y) :
    s.splitBlock p r size p = { s p with next := some r, size := size } := by
  unfold Store.splitBlock
  rw [modify_same, modifyUnlessNil_ne hnext, Function.update_of_ne hpr]

theorem splitBlock_remaining (size : UInt64) (hpr : p ≠ r) (hnext : ∀ y ∈ (s p).next, r ≠ y) :
    s.splitBlock p r size r =
      { addr := (s p).addr + size, size := (s p).size - size, isAllocated := false,
        next := (s p).next, prev := some p } := by
  unfold Store.splitBlock
  rw [modify_ne hpr.symm, modifyUnlessNil_ne hnext, Function.update_self]

theorem splitBlock_next {y : ℕ} (hy : (s p).next = some y) (hp : y ≠ p) (hr : y ≠ r) :
    s.splitBlock p r size y = { s y with prev := some r } := by
  unfold Store.splitBlock
  rw [modify_ne hp, modifyUnlessNil_mem hy, Function.update_of_ne hr]

theorem splitBlock_other {x : ℕ} (hp : x ≠ p) (hr : x ≠ r) (hnext : ∀ y ∈ (s p).next, x ≠ y) :
    s.splitBlock p r size x = s x := by
  unfold Store.splitBlock
  rw [modify_ne hp, modifyUnlessNil_ne hnext, Function.update_of_ne hr]

theorem splitBlock_tile {x : ℕ} (hp : x ≠ p) (hr : x ≠ r) :
    (s.splitBlock p r size x).next = (s x).next ∧
      tileOf (s.splitBlock p r size x) = tileOf (s x) := by
  by_cases hx : (s p).next = some x
  · rw [splitBlock_next hx hp hr]
    exact ⟨rfl, rfl⟩
  · rw [splitBlock_other hp hr]
    · exact ⟨rfl, rfl⟩
    · rintro y hy rfl
      exact hx hy

/-- **Splitting** links a new free block with the rest after the chosen one. -/
theorem ChainOk.splitBlock (h : ChainOk s (xs ++ p :: ys)) (hr : r ∉ xs ++ p :: ys)
    (size : UInt64) :
    ChainOk (s.splitBlock p r size) (xs ++ p :: r :: ys) ∧
      tilesAt (s.splitBlock p r size) xs = tilesAt s xs ∧
      tilesAt (s.splitBlock p r size) (p :: r :: ys) =
        ⟨(s p).addr.toNat, size.toNat, (s p).isAllocated⟩ ::
          ⟨((s p).addr + size).toNat, ((s p).size - size).toNat, false⟩ :: tilesAt s ys := by
  have hnext : (s p).next = ys.head? := h.next_eq
  have hhead (y : ℕ) (hy : y ∈ (s p).next) : y ∈ ys := List.mem_of_mem_head? (hnext ▸ hy)
  have hnodup := h.nodup
  simp only [List.nodup_append, List.nodup_cons, List.mem_cons] at hnodup
  obtain ⟨-, ⟨hpys, hys⟩, hapart⟩ := hnodup
  simp only [List.mem_append, List.mem_cons, not_or] at hr
  obtain ⟨hrxs, hrp, hrys⟩ := hr
  have hchosen := splitBlock_chosen (s := s) size (Ne.symm hrp)
    fun y hy heq => hpys (heq ▸ hhead y hy)
  have hremaining := splitBlock_remaining (s := s) size (Ne.symm hrp)
    fun y hy heq => hrys (heq ▸ hhead y hy)
  have hleft (x : ℕ) (hx : x ∈ xs) : s.splitBlock p r size x = s x := by
    refine splitBlock_other (hapart x hx p (.inl rfl)) (fun heq => hrxs (heq ▸ hx)) fun y hy => ?_
    exact hapart x hx y (.inr (hhead y hy))
  have hright (y : ℕ) (hy : y ∈ ys) : y ≠ p ∧ y ≠ r :=
    ⟨fun heq => hpys (heq ▸ hy), fun heq => hrys (heq ▸ hy)⟩
  refine ⟨⟨h.linked.insert_after ?_ ?_ ?_ ?_ ?_ ?_, ?_⟩, ?_, ?_⟩
  · intro x hx
    rw [hleft x hx]
    exact ⟨rfl, rfl⟩
  · rw [hchosen]
    exact ⟨rfl, rfl⟩
  · rw [hremaining]
    exact ⟨rfl, rfl⟩
  · intro y hy
    obtain ⟨hp, hr⟩ := hright y (List.mem_of_mem_head? hy)
    rw [splitBlock_next (hnext.trans hy) hp hr]
  · intro y hy
    exact (splitBlock_tile (hright y hy).1 (hright y hy).2).1
  · intro y hy
    obtain ⟨hp, hr⟩ := hright y (List.mem_of_mem_tail hy)
    rw [splitBlock_other hp hr]
    rintro z hz rfl
    exact not_mem_head_of_mem_tail hys hy (hnext ▸ hz)
  · have hnodup := h.nodup
    simp only [List.nodup_append, List.nodup_cons, List.mem_cons] at hnodup ⊢
    grind
  · exact tilesAt_congr fun x hx => congrArg tileOf (hleft x hx)
  · rw [tilesAt_cons, tilesAt_cons, hchosen, hremaining,
      tilesAt_congr fun y hy => (splitBlock_tile (hright y hy).1 (hright y hy).2).2]
    rfl

end Splitting

/-! ## The allocator -/

/-- The blocks of the allocator, at the pointers `ps`, form a well-formed tiling of the
heap, and the heap ends at `2 ^ 64` at the latest. -/
structure BlocksOk (fla : FreeListAllocator) (ps : List ℕ) : Prop extends
    ChainOk fla.blocks ps where
  head : fla.head = ps.head?
  below : ∀ p ∈ ps, p < fla.fresh
  tiling : TilingOk fla.heapStart.toNat fla.totalSize.toNat (tilesAt fla.blocks ps)
  bytes : fla.allocatedBytes.toNat = usedBytes (tilesAt fla.blocks ps)
  heapEnd : fla.heapStart.toNat + fla.totalSize.toNat ≤ 2 ^ 64

/-- The same, and the heap ends below `2 ^ 64` and has at most `2 ^ 63` bytes. -/
structure ListOk (fla : FreeListAllocator) (ps : List ℕ) : Prop extends BlocksOk fla ps where
  heapEnd_lt : fla.heapStart.toNat + fla.totalSize.toNat < 2 ^ 64
  total_le : fla.totalSize.toNat ≤ 2 ^ 63

section Allocator

variable {fla : FreeListAllocator} {ps xs ys : List ℕ} {p : ℕ} {size : UInt64}

/-- A list of pointers handed out is what the loops visit. -/
theorem ChainOk.pointers_eq (h : ChainOk fla.blocks ps) (hhead : fla.head = ps.head?)
    (hbelow : ∀ p ∈ ps, p < fla.fresh) : fla.pointers = ps := by
  have hsub : ps ⊆ List.range fla.fresh := fun p hp => List.mem_range.mpr (hbelow p hp)
  have hlen : ps.length ≤ fla.fresh := by
    simpa using (h.nodup.subperm hsub).length_le
  unfold FreeListAllocator.pointers
  rw [hhead]
  exact h.linked.walk_eq hlen

/-- The loops visit every block. -/
theorem BlocksOk.pointers_eq (h : BlocksOk fla ps) : fla.pointers = ps :=
  h.toChainOk.pointers_eq h.head h.below

theorem BlocksOk.blockList_eq (h : BlocksOk fla ps) : fla.blockList = ps.map fla.blocks :=
  congrArg (List.map fla.blocks) h.pointers_eq

theorem BlocksOk.tiling_middle (h : BlocksOk fla (xs ++ p :: ys)) :
    TilingOk fla.heapStart.toNat fla.totalSize.toNat
      (tilesAt fla.blocks xs ++ tileOf (fla.blocks p) :: tilesAt fla.blocks ys) := by
  have htiling := h.tiling
  rwa [tilesAt_append, tilesAt_cons] at htiling

/-- Every block lies inside the heap. -/
theorem BlocksOk.block_bounds (h : BlocksOk fla ps) (hp : p ∈ ps) :
    fla.heapStart.toNat ≤ (fla.blocks p).addr.toNat ∧
      (fla.blocks p).addr.toNat + (fla.blocks p).size.toNat ≤
        fla.heapStart.toNat + fla.totalSize.toNat :=
  h.tiling.tiles.mem_bounds (List.mem_map_of_mem hp)

/-- No two blocks have the same address. -/
theorem BlocksOk.addr_nodup (h : BlocksOk fla ps) :
    (ps.map fun p => (fla.blocks p).addr).Nodup := by
  have hnodup := h.tiling.addr_nodup
  rw [tilesAt, List.map_map] at hnodup
  refine List.Nodup.of_map UInt64.toNat ?_
  rw [List.map_map]
  exact hnodup

/-! ### Taking a block -/

/-- The comparison before a split, where its sum does not wrap around. -/
theorem split_iff {b : BlockHeader} (hsmall : size.toNat + 16 < 2 ^ 64) :
    b.size > size + 16 ↔ b.size.toNat > size.toNat + 16 := by
  have hadd : (size + 16).toNat = size.toNat + 16 := by
    rw [UInt64.toNat_add]
    exact Nat.mod_eq_of_lt hsmall
  rw [gt_iff_lt, UInt64.lt_iff_toNat_lt, hadd]

/-- The pointers and tiles after `takeBlock`, when it splits the block. -/
theorem BlocksOk.takeBlock_split (h : BlocksOk fla (xs ++ p :: ys))
    (hgt : (fla.blocks p).size > size + 16) :
    ChainOk (fla.takeBlock p size).blocks (xs ++ p :: fla.fresh :: ys) ∧
      (∀ q ∈ xs ++ p :: fla.fresh :: ys, q < (fla.takeBlock p size).fresh) ∧
      tilesAt (fla.takeBlock p size).blocks (xs ++ p :: fla.fresh :: ys) =
        tilesAt fla.blocks xs ++ ⟨(fla.blocks p).addr.toNat, size.toNat, true⟩ ::
          ⟨((fla.blocks p).addr + size).toNat, ((fla.blocks p).size - size).toNat, false⟩ ::
          tilesAt fla.blocks ys ∧
      (fla.takeBlock p size).allocatedBytes = fla.allocatedBytes + size := by
  have hfresh : fla.fresh ∉ xs ++ p :: ys := fun hmem => lt_irrefl _ (h.below _ hmem)
  obtain ⟨hsplit, hxs, hys⟩ := h.toChainOk.splitBlock hfresh size
  obtain ⟨hchain, hleft, hright⟩ := hsplit.modify
    (f := fun b => { b with isAllocated := true }) fun b => ⟨rfl, rfl⟩
  obtain ⟨hchosen, hrest⟩ := List.cons.inj (tilesAt_cons.symm.trans hys)
  simp only [tileOf, Tile.mk.injEq, UInt64.toNat_inj] at hchosen
  have htake : fla.takeBlock p size =
      { fla with
        blocks := (fla.blocks.splitBlock p fla.fresh size).modify p
          fun b => { b with isAllocated := true }
        fresh := fla.fresh + 1
        allocatedBytes := fla.allocatedBytes + size
        allocationsCount := fla.allocationsCount + 1 } := by
    simp only [FreeListAllocator.takeBlock, if_pos hgt, hchosen.2.1]
  rw [htake]
  refine ⟨hchain, ?_, ?_, rfl⟩
  · intro q hq
    have hold (hq : q ∈ xs ++ p :: ys) : q < fla.fresh + 1 := Nat.lt_succ_of_lt (h.below q hq)
    simp only [List.mem_append, List.mem_cons] at hq hold
    grind
  · rw [tilesAt_append, hleft, hxs, hright, hrest]
    simp [tileOf, hchosen]

/-- The pointers and tiles after `takeBlock`, when it uses the whole block. -/
theorem BlocksOk.takeBlock_whole (h : BlocksOk fla (xs ++ p :: ys))
    (hgt : ¬ (fla.blocks p).size > size + 16) :
    ChainOk (fla.takeBlock p size).blocks (xs ++ p :: ys) ∧
      (fla.takeBlock p size).fresh = fla.fresh ∧
      tilesAt (fla.takeBlock p size).blocks (xs ++ p :: ys) = tilesAt fla.blocks xs ++
        ⟨(fla.blocks p).addr.toNat, (fla.blocks p).size.toNat, true⟩ :: tilesAt fla.blocks ys ∧
      (fla.takeBlock p size).allocatedBytes = fla.allocatedBytes + (fla.blocks p).size := by
  obtain ⟨hchain, hleft, hright⟩ := h.toChainOk.modify
    (f := fun b => { b with isAllocated := true }) fun b => ⟨rfl, rfl⟩
  have htake : fla.takeBlock p size =
      { fla with
        blocks := fla.blocks.modify p fun b => { b with isAllocated := true }
        allocatedBytes := fla.allocatedBytes + (fla.blocks p).size
        allocationsCount := fla.allocationsCount + 1 } := by
    simp only [FreeListAllocator.takeBlock, if_neg hgt]
  rw [htake]
  refine ⟨hchain, rfl, ?_, rfl⟩
  rw [tilesAt_append, hleft, hright]
  rfl

/-- The pointers and tiles after `takeBlock`. -/
theorem BlocksOk.takeBlock_chain (h : BlocksOk fla (xs ++ p :: ys))
    (hsmall : size.toNat + 16 < 2 ^ 64) :
    ∃ ps', ChainOk (fla.takeBlock p size).blocks ps' ∧ ps'.head? = (xs ++ p :: ys).head? ∧
      (∀ q ∈ ps', q < (fla.takeBlock p size).fresh) ∧
      tilesAt (fla.takeBlock p size).blocks ps' = tilesAt fla.blocks xs ++
        (place 16 size.toNat (tileOf (fla.blocks p)) ++ tilesAt fla.blocks ys) ∧
      (fla.takeBlock p size).allocatedBytes = fla.allocatedBytes +
        UInt64.ofNat (placedSize 16 size.toNat (tileOf (fla.blocks p))) := by
  have hsplit := split_iff (b := fla.blocks p) hsmall
  by_cases hgt : (fla.blocks p).size > size + 16
  · obtain ⟨hchain, hbelow, htiles, hbytes⟩ := h.takeBlock_split hgt
    have hgt' := hsplit.mp hgt
    have hend := (h.block_bounds (p := p) (by simp)).2
    have hheap := h.heapEnd
    have haddr : ((fla.blocks p).addr + size).toNat = (fla.blocks p).addr.toNat + size.toNat := by
      rw [UInt64.toNat_add, Nat.mod_eq_of_lt (by omega)]
    have hrest : ((fla.blocks p).size - size).toNat = (fla.blocks p).size.toNat - size.toNat :=
      UInt64.toNat_sub_of_le _ _ (UInt64.le_iff_toNat_le.mpr (by omega))
    refine ⟨_, hchain, by cases xs <;> rfl, hbelow, ?_, ?_⟩
    · rw [htiles, haddr, hrest]
      simp [place, tileOf, hgt']
    · rw [hbytes]
      simp [placedSize, tileOf, hgt']
  · obtain ⟨hchain, hfresh, htiles, hbytes⟩ := h.takeBlock_whole hgt
    have hgt' := mt hsplit.mpr hgt
    refine ⟨_, hchain, rfl, ?_, ?_, ?_⟩
    · rw [hfresh]
      exact h.below
    · rw [htiles]
      simp [place, tileOf, hgt']
    · rw [hbytes]
      simp [placedSize, tileOf, hgt']

theorem takeBlock_fields (p : ℕ) (size : UInt64) (fla : FreeListAllocator) :
    (fla.takeBlock p size).head = fla.head ∧
      (fla.takeBlock p size).heapStart = fla.heapStart ∧
      (fla.takeBlock p size).totalSize = fla.totalSize := by
  unfold FreeListAllocator.takeBlock
  split <;> exact ⟨rfl, rfl, rfl⟩

/-- **Taking a free block** places the request in its tile. -/
theorem BlocksOk.takeBlock (h : BlocksOk fla (xs ++ p :: ys))
    (hfree : (fla.blocks p).isAllocated = false) (hpos : 0 < size.toNat)
    (hsize : size.toNat ≤ (fla.blocks p).size.toNat) (hsmall : size.toNat + 16 < 2 ^ 64) :
    ∃ ps', BlocksOk (fla.takeBlock p size) ps' ∧
      tilesAt (fla.takeBlock p size).blocks ps' = tilesAt fla.blocks xs ++
        (place 16 size.toNat (tileOf (fla.blocks p)) ++ tilesAt fla.blocks ys) := by
  obtain ⟨ps', hchain, hhead, hbelow, htiles, hbytes⟩ := h.takeBlock_chain hsmall
  obtain ⟨hhead', hstart, htotal⟩ := takeBlock_fields p size fla
  have htiling := h.tiling_middle.place 16 hfree hpos hsize
  have hused := usedBytes_place 16 size.toNat (tilesAt fla.blocks xs) (tilesAt fla.blocks ys)
    (b := tileOf (fla.blocks p)) hfree
  have hle := htiling.usedBytes_le
  have htotal_lt := fla.totalSize.toNat_lt
  refine ⟨ps', ⟨hchain, ?_, hbelow, ?_, ?_, ?_⟩, htiles⟩
  · rw [hhead', h.head, hhead]
  · rw [hstart, htotal, htiles]
    exact htiling
  · rw [htiles, hused, hbytes, UInt64.toNat_add, UInt64.toNat_ofNat', Nat.add_mod_mod, h.bytes,
      tilesAt_append, tilesAt_cons]
    exact Nat.mod_eq_of_lt (by omega)
  · rw [hstart, htotal]
    exact h.heapEnd

/-- The allocation of a free block is `place` on its range. -/
theorem ListOk.takeBlock (h : ListOk fla (xs ++ p :: ys))
    (hfree : (fla.blocks p).isAllocated = false) (hpos : 0 < size.toNat)
    (hsize : size.toNat ≤ (fla.blocks p).size.toNat) :
    ∃ ps', ListOk (fla.takeBlock p size) ps' ∧
      tilesAt (fla.takeBlock p size).blocks ps' = tilesAt fla.blocks xs ++
        (place 16 size.toNat (tileOf (fla.blocks p)) ++ tilesAt fla.blocks ys) := by
  have hbounds := h.toBlocksOk.block_bounds (p := p) (by simp)
  have htotal_le := h.total_le
  obtain ⟨ps', hok, htiles⟩ := h.toBlocksOk.takeBlock hfree hpos hsize (by omega)
  obtain ⟨-, hstart, htotal⟩ := takeBlock_fields p size fla
  refine ⟨ps', ⟨hok, ?_, ?_⟩, htiles⟩
  · rw [hstart, htotal]
    exact h.heapEnd_lt
  · rw [htotal]
    exact htotal_le

/-! ### Freeing a block -/

theorem modify_addr {s : Store} {f : BlockHeader → BlockHeader} (hf : ∀ b, (f b).addr = b.addr)
    (p q : ℕ) : (s.modify p f q).addr = (s q).addr := by
  by_cases hq : q = p
  · subst hq
    rw [modify_same, hf]
  · rw [modify_ne hq]

theorem absorb_addr (s : Store) (p q r : ℕ) : (s.absorb p q r).addr = (s r).addr := by
  unfold Store.absorb
  cases (s q).next with
  | none =>
    refine modify_addr ?_ p r
    exact fun _ => rfl
  | some y =>
    refine (modify_addr ?_ y r).trans (modify_addr ?_ p r)
    · exact fun _ => rfl
    · exact fun _ => rfl

/-- Freeing moves no block. -/
theorem releaseBlock_addr (p q : ℕ) (fla : FreeListAllocator) :
    ((fla.releaseBlock p).blocks q).addr = (fla.blocks q).addr := by
  have hnext (s : Store) : (s.coalesceNext p q).addr = (s q).addr := by
    fun_cases Store.coalesceNext p s with
    | case1 => rfl
    | case2 => exact absorb_addr _ _ _ q
    | case3 => rfl
  have hprev (s : Store) : (s.coalescePrev p q).addr = (s q).addr := by
    fun_cases Store.coalescePrev p s with
    | case1 => rfl
    | case2 => exact absorb_addr _ _ _ q
    | case3 => rfl
  show (((fla.blocks.modify p _).coalesceNext p).coalescePrev p q).addr = _
  rw [hprev, hnext]
  refine modify_addr ?_ p q
  exact fun _ => rfl

/-- Freeing a block and coalescing both ways is `release`. -/
theorem ChainOk.release {s : Store} (h : ChainOk s (xs ++ p :: ys))
    (htiles : Tiles a (tilesAt s (xs ++ p :: ys)) e) (he : e < a + 2 ^ 64) :
    ∃ ps, ps.Sublist (xs ++ p :: ys) ∧ ps.head? = (xs ++ p :: ys).head? ∧
      ChainOk (((s.modify p fun b => { b with isAllocated := false }).coalesceNext p).coalescePrev p)
        ps ∧
      tilesAt (((s.modify p fun b => { b with isAllocated := false }).coalesceNext p).coalescePrev p)
        ps = Library.release (tilesAt s xs) (tileOf (s p)) (tilesAt s ys) := by
  obtain ⟨hchain, hxs, hpys⟩ := h.modify
    (f := fun b => { b with isAllocated := false }) fun b => ⟨rfl, rfl⟩
  generalize s.modify p (fun b => { b with isAllocated := false }) = s₀ at *
  obtain ⟨hp, hys⟩ := List.cons.inj (tilesAt_cons.symm.trans hpys)
  rw [tilesAt_append, tilesAt_cons] at htiles
  obtain ⟨hleft, hright⟩ := tiles_middle.mp htiles
  have htiles₀ : Tiles a (tilesAt s₀ (xs ++ p :: ys)) e := by
    rw [tilesAt_append, hxs, hpys]
    exact tiles_middle.mpr ⟨hleft, hright⟩
  obtain ⟨ys', hsub, hchain₁, hxs₁, hpys₁⟩ := hchain.coalesceNext htiles₀ he
  rw [hp, hys] at hpys₁
  have htiles₁ : Tiles a (tilesAt (s₀.coalesceNext p) (xs ++ p :: ys')) e := by
    rw [tilesAt_append, hxs₁, hxs, hpys₁]
    exact tiles_append.mpr ⟨_, hleft, Tiles.mergeNext ⟨rfl, hright⟩⟩
  have hfree : (s₀.coalesceNext p p).isAllocated = false := by
    refine head_mergeNext (b := freed (tileOf (s p))) (tilesAt s ys) rfl (tileOf _) ?_
    rw [show freed (tileOf (s p)) = tileOf { s p with isAllocated := false } from rfl, ← hpys₁]
    rfl
  obtain ⟨ps, hsub', hhead, hchain₂, htiles₂⟩ := hchain₁.coalescePrev htiles₁ he hfree
  refine ⟨ps, hsub'.trans ?_, hhead.trans ?_, hchain₂, ?_⟩
  · exact List.Sublist.append_left (List.Sublist.cons_cons p hsub) xs
  · cases xs <;> rfl
  · rw [htiles₂, hxs₁, hxs, hpys₁]
    rfl

/-- **Freeing a block** releases its tile. -/
theorem BlocksOk.releaseBlock (h : BlocksOk fla (xs ++ p :: ys))
    (hused : (fla.blocks p).isAllocated = true) :
    ∃ ps', BlocksOk (fla.releaseBlock p) ps' ∧ ps'.Sublist (xs ++ p :: ys) ∧
      tilesAt (fla.releaseBlock p).blocks ps' =
        release (tilesAt fla.blocks xs) (tileOf (fla.blocks p)) (tilesAt fla.blocks ys) := by
  have htotal := Nat.add_lt_add_left fla.totalSize.toNat_lt fla.heapStart.toNat
  obtain ⟨ps', hsub, hhead, hchain, htiles⟩ := h.toChainOk.release h.tiling.tiles htotal
  have htiling := h.tiling_middle
  have hbytes := usedBytes_release (tilesAt fla.blocks xs) (tilesAt fla.blocks ys)
    (b := tileOf (fla.blocks p)) hused
  refine ⟨ps', ⟨hchain, h.head.trans hhead.symm, ?_, ?_, ?_, h.heapEnd⟩, hsub, htiles⟩
  · intro q hq
    exact h.below q (hsub.subset hq)
  · show TilingOk _ _ (tilesAt _ ps')
    rw [FreeListAllocator.releaseBlock, htiles]
    exact htiling.release hused
  · have hold := h.bytes
    rw [tilesAt_append, tilesAt_cons] at hold
    have hle : (fla.blocks p).size ≤ fla.allocatedBytes := by
      rw [UInt64.le_iff_toNat_le, hold, ← hbytes]
      exact Nat.le_add_left _ _
    show (fla.allocatedBytes - (fla.blocks p).size).toNat = usedBytes (tilesAt _ ps')
    rw [FreeListAllocator.releaseBlock, htiles, UInt64.toNat_sub_of_le _ _ hle, hold, ← hbytes]
    exact Nat.add_sub_cancel _ _

/-- `Free` of a block is `release` on its range. -/
theorem ListOk.releaseBlock (h : ListOk fla (xs ++ p :: ys))
    (hused : (fla.blocks p).isAllocated = true) :
    ∃ ps', ListOk (fla.releaseBlock p) ps' ∧ ps'.Sublist (xs ++ p :: ys) ∧
      tilesAt (fla.releaseBlock p).blocks ps' =
        release (tilesAt fla.blocks xs) (tileOf (fla.blocks p)) (tilesAt fla.blocks ys) := by
  obtain ⟨ps', hok, hrest⟩ := h.toBlocksOk.releaseBlock hused
  exact ⟨ps', ⟨hok, h.heapEnd_lt, h.total_le⟩, hrest⟩

end Allocator

end OsSimulator.Interface
