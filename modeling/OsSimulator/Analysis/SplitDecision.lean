import OsSimulator.Library.EventRun
import OsSimulator.Analysis.FreeListHeap

/-!
# When the split decision is exact

`Malloc` splits the chosen block if its `Size` exceeds `size + 16`, a sum of 64-bit words.

* For a request below `2 ^ 64 - 16` the comparison is the one of unbounded integers
  (`exactSplit_takeBlock`).
* For a larger request the sum wraps around to less than 16, and every block that fits the request
  is split, although at most 15 bytes are left of it (`splits_of_large`).

So the decisions of a run are exact, and the addresses of the blocks distinct, exactly when every
request that succeeds is below `2 ^ 64 - 16` (`split_decision_exact_iff`).
-/

set_option autoImplicit false

namespace OsSimulator.Analysis

open Library Model Interface

/-- The blocks `after` a request of `size` bytes was served from the free block `b` between `xs`
and `ys`. -/
structure ExactSplit (size : UInt64) (xs : List BlockHeader) (b : BlockHeader)
    (ys after : List BlockHeader) : Prop where
  free : b.isAllocated = false
  enough : size.toNat ≤ b.size.toNat
  /-- A rest of more than 16 bytes becomes a free block. -/
  split : 16 < b.size.toNat - size.toNat → after.map tileOf = xs.map tileOf ++
    ⟨b.addr.toNat, size.toNat, true⟩ ::
      ⟨b.addr.toNat + size.toNat, b.size.toNat - size.toNat, false⟩ :: ys.map tileOf
  /-- A rest of at most 16 bytes is wasted. -/
  whole : b.size.toNat - size.toNat ≤ 16 → after.map tileOf = xs.map tileOf ++
    ⟨b.addr.toNat, b.size.toNat, true⟩ :: ys.map tileOf

/-- If `Malloc` succeeds, it splits the block at the returned address exactly. -/
def MallocExact (fla : FreeListAllocator) (size : UInt64) (bestFit : Bool) : Prop :=
  ∀ addr, (fla.malloc size bestFit).1 = .ok addr →
    ∃ xs b ys, fla.blockList = xs ++ b :: ys ∧ b.addr = addr ∧
      ExactSplit size xs b ys (fla.malloc size bestFit).2.blockList

/-! ## One request -/

section Request

variable {fla : FreeListAllocator} {ps xs ys : List ℕ} {p : ℕ} {size : UInt64}

theorem exactSplit_takeBlock (h : BlocksOk fla (xs ++ p :: ys))
    (hfree : (fla.blocks p).isAllocated = false) (hpos : 0 < size.toNat)
    (hle : size.toNat ≤ (fla.blocks p).size.toNat) (hsmall : size.toNat + 16 < 2 ^ 64) :
    ExactSplit size (xs.map fla.blocks) (fla.blocks p) (ys.map fla.blocks)
      (fla.takeBlock p size).blockList := by
  obtain ⟨ps', hok, htiles⟩ := h.takeBlock hfree hpos hle hsmall
  have hafter : (fla.takeBlock p size).blockList.map tileOf =
      (xs.map fla.blocks).map tileOf ++
        (place 16 size.toNat (tileOf (fla.blocks p)) ++ (ys.map fla.blocks).map tileOf) := by
    rw [hok.blockList_eq, ← tilesAt_eq, ← tilesAt_eq, ← tilesAt_eq, htiles]
  refine ⟨hfree, hle, fun hrest => ?_, fun hrest => ?_⟩
  · have hgt : (tileOf (fla.blocks p)).size > size.toNat + 16 := Nat.add_lt_of_lt_sub' hrest
    rw [hafter, place, if_pos hgt]
    rfl
  · have hgt : ¬ (tileOf (fla.blocks p)).size > size.toNat + 16 := by
      rw [gt_iff_lt, Nat.not_lt]
      exact Nat.sub_le_iff_le_add'.mp hrest
    rw [hafter, place, if_neg hgt]
    rfl

/-- A block that fits a request of at least `2 ^ 64 - 16` bytes is split. -/
theorem splits_of_large (h : BlocksOk fla (xs ++ p :: ys))
    (hle : size.toNat ≤ (fla.blocks p).size.toNat) (hlarge : ¬ size.toNat + 16 < 2 ^ 64) :
    (fla.takeBlock p size).blockList.length = fla.blockList.length + 1 := by
  have hgt : (fla.blocks p).size > size + 16 := by
    have hlt := size.toNat_lt
    have hsum : (size + 16).toNat = (size.toNat + 16) % 2 ^ 64 := UInt64.toNat_add size 16
    rw [gt_iff_lt, UInt64.lt_iff_toNat_lt, hsum]
    omega
  obtain ⟨hchain, hbelow, -, -⟩ := h.takeBlock_split hgt
  have hhead : (fla.takeBlock p size).head = (xs ++ p :: fla.fresh :: ys).head? := by
    rw [(takeBlock_fields p size fla).1, h.head]
    cases xs <;> rfl
  unfold FreeListAllocator.blockList
  rw [List.length_map, List.length_map, hchain.pointers_eq hhead hbelow, h.pointers_eq]
  simp only [List.length_append, List.length_cons]
  omega

/-- **One request** is served exactly if and only if the sum does not wrap around. -/
theorem mallocExact_iff (h : BlocksOk fla ps) (hsize : size ≠ 0) (bestFit : Bool) :
    MallocExact fla size bestFit ↔ SumFits fla (.malloc size bestFit) := by
  have hpos := toNat_pos_of_ne_zero hsize
  rcases malloc_cases h hsize bestFit with ⟨xs, p, ys, rfl, hfree, hle, -, heq⟩ | ⟨-, heq⟩
  · constructor
    · rintro hexact -
      by_contra hlarge
      obtain ⟨xs', b, ys', hlist, -, hsplit⟩ := hexact _ (congrArg Prod.fst heq)
      -- at most 15 bytes are left of any block, so an exact `Malloc` adds no block
      have hlt := b.size.toNat_lt
      have hafter := congrArg List.length (hsplit.whole (by omega))
      rw [heq, List.length_map, splits_of_large h hle hlarge, hlist] at hafter
      simp at hafter
    · intro hfits addr haddr
      have hsmall := hfits ⟨addr, haddr⟩
      refine ⟨xs.map fla.blocks, fla.blocks p, ys.map fla.blocks, ?_, ?_, ?_⟩
      · rw [h.blockList_eq, List.map_append, List.map_cons]
      · rw [heq] at haddr
        exact Except.ok.inj haddr
      · rw [heq]
        exact exactSplit_takeBlock h hfree hpos hle hsmall
  · constructor
    · rintro - ⟨addr, haddr⟩
      rw [heq] at haddr
      cases haddr
    · intro _ addr haddr
      rw [heq] at haddr
      cases haddr

end Request

/-! ## Runs -/

section Runs

variable {start total : UInt64}

/-- As long as no sum wraps around, the block list is well formed. -/
theorem blocksOk_calls (hend : start.toNat + total.toNat ≤ 2 ^ 64) {cs : List HeapCall}
    (hfits : ∀ done c, done ++ [c] <+: cs →
      SumFits ((newFreeListAllocator start total).calls done) c) :
    ∃ ps, BlocksOk ((newFreeListAllocator start total).calls cs) ps := by
  induction cs using List.reverseRecOn with
  | nil => exact ⟨[0], blocksOk_new hend⟩
  | append_singleton cs c ih =>
    obtain ⟨hfits, hlast⟩ := steps_concat.mp hfits
    obtain ⟨ps, hok⟩ := ih hfits
    obtain ⟨ps', hok', -⟩ := blocksOk_call hok hlast
    rw [calls_concat]
    exact ⟨ps', hok'⟩

/-- A run with exact decisions only has no sum that wraps around. -/
theorem sumFits_of_exact (hend : start.toNat + total.toNat ≤ 2 ^ 64) {cs : List HeapCall}
    (hexact : ∀ done size bestFit, done ++ [.malloc size bestFit] <+: cs → 0 < size →
      MallocExact ((newFreeListAllocator start total).calls done) size bestFit) :
    ∀ done c, done ++ [c] <+: cs → SumFits ((newFreeListAllocator start total).calls done) c := by
  induction cs using List.reverseRecOn with
  | nil =>
    intro done c hpre
    simp at hpre
  | append_singleton cs c ih =>
    have hfits := ih fun done size bestFit hpre =>
      hexact done size bestFit (hpre.trans (List.prefix_append ..))
    refine steps_concat.mpr ⟨hfits, ?_⟩
    obtain ⟨ps, hok⟩ := blocksOk_calls hend hfits
    cases c with
    | free addr => trivial
    | malloc size bestFit =>
      by_cases hsize : size = 0
      · subst hsize
        exact fun _ => by decide
      · refine (mallocExact_iff hok hsize bestFit).mp ?_
        exact hexact cs size bestFit (List.prefix_refl _) (UInt64.pos_iff_ne_zero.mpr hsize)

/-- **The split decision is exact, and no two blocks share an address**, all along a run, exactly
when every request that succeeds is below `2 ^ 64 - 16`. -/
theorem split_decision_exact_iff (start total : UInt64)
    (hend : start.toNat + total.toNat ≤ 2 ^ 64) (cs : List HeapCall) :
    ((∀ done size bestFit, done ++ [.malloc size bestFit] <+: cs → 0 < size →
        MallocExact ((newFreeListAllocator start total).calls done) size bestFit) ∧
      ∀ done, done <+: cs →
        (((newFreeListAllocator start total).calls done).blockList.map BlockHeader.addr).Nodup) ↔
    ∀ done size bestFit addr, done ++ [.malloc size bestFit] <+: cs →
      (((newFreeListAllocator start total).calls done).malloc size bestFit).1 = .ok addr →
      size.toNat < 2 ^ 64 - 16 := by
  constructor
  · rintro ⟨hexact, -⟩ done size bestFit addr hpre hok
    have := sumFits_of_exact hend hexact done _ hpre ⟨addr, hok⟩
    omega
  · intro hsmall
    have hfits : ∀ done c, done ++ [c] <+: cs →
        SumFits ((newFreeListAllocator start total).calls done) c := by
      intro done c hpre
      cases c with
      | free addr => trivial
      | malloc size bestFit =>
        rintro ⟨addr, hok⟩
        have := hsmall done size bestFit addr hpre hok
        omega
    have hpoint (done : List HeapCall) (hdone : done <+: cs) :=
      blocksOk_calls hend fun before c hpre => hfits before c (hpre.trans hdone)
    refine ⟨fun done size bestFit hpre hpos => ?_, fun done hpre => ?_⟩
    · obtain ⟨ps, hok⟩ := hpoint done ((List.prefix_append ..).trans hpre)
      exact (mallocExact_iff hok (UInt64.pos_iff_ne_zero.mp hpos) bestFit).mpr (hfits done _ hpre)
    · obtain ⟨ps, hok⟩ := hpoint done hpre
      rw [hok.blockList_eq, List.map_map]
      exact hok.addr_nodup

theorem split_decision_exact_iff_oneCall :
    (4096 : UInt64).toNat + (1024 : UInt64).toNat ≤ 2 ^ 64 ∧
      MallocExact ((newFreeListAllocator 4096 1024).calls []) 100 true ∧
      (((newFreeListAllocator 4096 1024).calls [.malloc 100 true]).blockList.map
        BlockHeader.addr).Nodup := by
  have hsmall : ∀ done size bestFit addr,
      done ++ [HeapCall.malloc size bestFit] <+: [HeapCall.malloc 100 true] →
      (((newFreeListAllocator 4096 1024).calls done).malloc size bestFit).1 = .ok addr →
      size.toNat < 2 ^ 64 - 16 := by
    intro done size bestFit addr hpre _
    have hmem : HeapCall.malloc size bestFit ∈ [HeapCall.malloc 100 true] :=
      hpre.subset (by simp)
    cases List.mem_singleton.mp hmem
    decide
  obtain ⟨hexact, hnodup⟩ :=
    (split_decision_exact_iff 4096 1024 (by decide) [.malloc 100 true]).mpr hsmall
  refine ⟨by decide, hexact [] 100 true (List.prefix_refl _) (by decide), ?_⟩
  exact hnodup _ (List.prefix_refl _)

/-- A request for the whole heap of `2 ^ 64 - 1` bytes splits it, and leaves a block of no bytes.
After `Malloc(2 ^ 64 - 16)`, `Malloc(15)`, `Free(0)` and `Malloc(2 ^ 64 - 16)` such a block has the
address of the block that follows. -/
theorem split_leaves_nothing :
    (0 : UInt64).toNat + (18446744073709551615 : UInt64).toNat ≤ 2 ^ 64 ∧
      (let after := (newFreeListAllocator 0 18446744073709551615).malloc 18446744073709551615 false
       after.1.toOption = some 0 ∧ after.2.blockList =
        [⟨0, 18446744073709551615, true, some 1, none⟩,
          ⟨18446744073709551615, 0, false, none, some 0⟩]) ∧
      ¬ MallocExact (newFreeListAllocator 0 18446744073709551615) 18446744073709551615 false ∧
      ((newFreeListAllocator 0 18446744073709551615).calls
        [.malloc 18446744073709551600 false, .malloc 15 false, .free 0,
          .malloc 18446744073709551600 false]).blockList.map BlockHeader.addr =
        [0, 18446744073709551600, 18446744073709551600] := by
  refine ⟨by decide, by decide +kernel, fun hexact => ?_, by decide +kernel⟩
  have hfits := (mallocExact_iff (blocksOk_new (by decide)) (by decide) false).mp hexact
  exact absurd (hfits ⟨0, rfl⟩) (by decide)

end Runs

end OsSimulator.Analysis
