import Mathlib.Data.Nat.Log
import Mathlib.Order.Bounds.Defs
import OsSimulator.Library.BuddyBlocks
import OsSimulator.Model.Buddy

/-!
# The buddy allocator reserves buddy blocks

`leafBlocks` reads the blocks at the leaves off a tree, at their offsets from the base address, and
`Laid` says that orders and addresses of the nodes are those of their places and that no inner node
is allocated.  The search of the source is `reserve` on the blocks: it splits a node only when it
then succeeds (`findAndSplit_none`, `findAndSplit_some`).  From these:

* `buddy_blocks`: the granted blocks of every sequence of calls are tight, aligned, inside the
  range and pairwise disjoint, and the leaves tile the range;
* `buddy_fails_only_when_full`: when a call succeeds, and with which address.

For sizes above `2 ^ 63` a call does not return: the search for the order shifts its bit out of the
word and goes on for ever (`allocateReturns_iff`).

Addresses may wrap around; the second result does not depend on where the range lies.
-/

set_option autoImplicit false

namespace OsSimulator.Analysis

open Library Model

/-! ## Blocks of a tree -/

structure BuddyLeaf where
  addr : UInt64
  order : ℕ
  isAllocated : Bool
deriving DecidableEq, Repr

/-- The leaves from left to right. -/
def leaves : BuddyNode → List BuddyLeaf
  | .leaf addr order isAllocated => [⟨addr, order, isAllocated⟩]
  | .inner _ _ _ left right => leaves left ++ leaves right

/-- No inner node is marked allocated. -/
def OnlyLeavesAllocated : BuddyNode → Prop
  | .leaf _ _ _ => True
  | .inner _ _ isAllocated left right =>
    isAllocated = false ∧ OnlyLeavesAllocated left ∧ OnlyLeavesAllocated right

/-- The blocks at the leaves of a tree that starts at an offset. -/
def leafBlocks (offset : ℕ) : BuddyNode → List BuddyBlock
  | .leaf _ order isAllocated => [⟨offset, order, isAllocated⟩]
  | .inner _ order _ left right =>
    leafBlocks offset left ++ leafBlocks (offset + 2 ^ (order - 1)) right

def addrOf (base : UInt64) (offset : ℕ) : UInt64 := base + UInt64.ofNat offset

/-- The tree has the given order and lies at an offset from the base, each half where it belongs. -/
def Laid (base : UInt64) : (offset n : ℕ) → BuddyNode → Prop
  | offset, n, .leaf addr order _ => addr = addrOf base offset ∧ order = n
  | offset, n, .inner addr order isAllocated left right =>
    addr = addrOf base offset ∧ order = n ∧ isAllocated = false ∧
      ∃ m, n = m + 1 ∧ Laid base offset m left ∧ Laid base (offset + 2 ^ m) m right

section Tree

variable {base : UInt64} {offset n k : ℕ} {node : BuddyNode}

theorem addrOf_add (base : UInt64) (offset m : ℕ) :
    addrOf base offset + UInt64.ofNat m = addrOf base (offset + m) := by
  rw [addrOf, addrOf, UInt64.ofNat_add, UInt64.add_assoc]

theorem leaves_eq (h : Laid base offset n node) :
    leaves node = (leafBlocks offset node).map fun b => ⟨addrOf base b.offset, b.order, b.used⟩ := by
  induction node generalizing offset n with
  | leaf addr order isAllocated =>
    obtain ⟨rfl, rfl⟩ := h
    rfl
  | inner addr order isAllocated left right ihl ihr =>
    obtain ⟨-, rfl, -, m, rfl, hleft, hright⟩ := h
    rw [leaves, leafBlocks, List.map_append, ihl hleft, Nat.add_sub_cancel, ihr hright]

theorem Laid.onlyLeaves (h : Laid base offset n node) : OnlyLeavesAllocated node := by
  induction node generalizing offset n with
  | leaf addr order isAllocated => trivial
  | inner addr order isAllocated left right ihl ihr =>
    obtain ⟨-, -, hfree, m, -, hleft, hright⟩ := h
    exact ⟨hfree, ihl hleft, ihr hright⟩

/-! ## The search -/

/-- The search has found the block `b`, and marking it gives the tree of the blocks `bs`. -/
def Finds (base : UInt64) (offset n : ℕ) (b : BuddyBlock) (bs : List BuddyBlock)
    (result : Option (List Side) × BuddyNode) : Prop :=
  ∃ path node, result = (some path, node) ∧ (node.nodeAt path).addr = addrOf base b.offset ∧
    Laid base offset n (node.mark path) ∧ leafBlocks offset (node.mark path) = bs

theorem splitLeaf_found (base : UInt64) (offset k d : ℕ) :
    Finds base offset (k + d) ⟨offset, k + d, false⟩ (carve offset k d)
      (BuddyNode.splitLeaf k (addrOf base offset) (k + d) false) := by
  induction d with
  | zero =>
    refine ⟨[], .leaf (addrOf base offset) k false, ?_, rfl, ⟨rfl, rfl⟩, rfl⟩
    cases k with
    | zero => rfl
    | succ k => simp [BuddyNode.splitLeaf]
  | succ d ih =>
    obtain ⟨path, left, hsplit, haddr, hlaid, hblocks⟩ := ih
    refine ⟨.left :: path, .inner (addrOf base offset) (k + d + 1) false left
      (.leaf (addrOf base (offset + 2 ^ (k + d))) (k + d) false), ?_, haddr, ?_, ?_⟩
    · rw [← Nat.add_assoc, BuddyNode.splitLeaf, if_neg (by omega), if_pos (by omega), hsplit]
      simp only [Option.map_some, addrOf_add]
    · exact ⟨rfl, rfl, rfl, k + d, rfl, hlaid, rfl, rfl⟩
    · show leafBlocks offset (left.mark path) ++ [⟨offset + 2 ^ (k + d + 1 - 1), k + d, false⟩] = _
      rw [hblocks, Nat.add_sub_cancel]
      rfl

theorem splitLeaf_none {addr : UInt64} {isAllocated : Bool}
    (h : (⟨offset, n, isAllocated⟩ : BuddyBlock).serves k = false) :
    BuddyNode.splitLeaf k addr n isAllocated = (none, .leaf addr n isAllocated) := by
  cases isAllocated with
  | true => cases n <;> rfl
  | false =>
    have hlt : n < k := by simpa [BuddyBlock.serves] using h
    cases n with
    | zero => rw [BuddyNode.splitLeaf, if_neg (by omega)]
    | succ n => rw [BuddyNode.splitLeaf, if_neg (by omega), if_neg (by omega)]

/-- **A search without a suitable leaf** finds nothing and changes nothing. -/
theorem findAndSplit_none (h : Laid base offset n node)
    (hnone : reserve k (leafBlocks offset node) = none) : node.findAndSplit k = (none, node) := by
  induction node generalizing offset n with
  | leaf addr order isAllocated =>
    have hserves := reserve_eq_none_iff.mp hnone
    exact splitLeaf_none (hserves _ (List.mem_singleton_self _))
  | inner addr order isAllocated left right ihl ihr =>
    obtain ⟨-, rfl, rfl, m, rfl, hleft, hright⟩ := h
    rw [reserve_eq_none_iff, leafBlocks, List.forall_mem_append, Nat.add_sub_cancel,
      ← reserve_eq_none_iff, ← reserve_eq_none_iff] at hnone
    rw [BuddyNode.findAndSplit, ihl hleft hnone.1]
    simp only [ihr hright hnone.2]
    rfl

/-- **A search with a suitable leaf** splits the first one. -/
theorem findAndSplit_some {b : BuddyBlock} {bs : List BuddyBlock} (h : Laid base offset n node)
    (hsome : reserve k (leafBlocks offset node) = some (b, bs)) :
    Finds base offset n b bs (node.findAndSplit k) := by
  induction node generalizing offset n bs with
  | leaf addr order isAllocated =>
    obtain ⟨rfl, rfl⟩ := h
    obtain ⟨xs, ys, hsplit, -, hserves, rfl⟩ := reserve_eq_some hsome
    obtain ⟨rfl, rfl, rfl⟩ : xs = [] ∧ b = ⟨offset, order, isAllocated⟩ ∧ ys = [] := by
      simpa [leafBlocks, List.cons_eq_append_iff] using hsplit
    obtain ⟨hfree, hle⟩ := BuddyBlock.serves_iff.mp hserves
    obtain ⟨d, rfl⟩ := Nat.exists_eq_add_of_le hle
    cases (hfree : isAllocated = false)
    simpa [BuddyNode.findAndSplit] using splitLeaf_found base offset k d
  | inner addr order isAllocated left right ihl ihr =>
    obtain ⟨haddr, rfl, rfl, m, rfl, hleft, hright⟩ := h
    rw [leafBlocks, Nat.add_sub_cancel] at hsome
    rw [BuddyNode.findAndSplit]
    cases hl : reserve k (leafBlocks offset left) with
    | some r =>
      obtain ⟨c, cs⟩ := r
      rw [reserve_append_of_some hl] at hsome
      cases hsome
      obtain ⟨path, left', hfind, hat, hlaid, hblocks⟩ := ihl hleft hl
      refine ⟨.left :: path, .inner addr (m + 1) false left' right, ?_, hat, ?_, ?_⟩
      · rw [hfind]
      · exact ⟨haddr, rfl, rfl, m, rfl, hlaid, hright⟩
      · show leafBlocks offset (left'.mark path) ++ leafBlocks (offset + 2 ^ (m + 1 - 1)) right = _
        rw [hblocks, Nat.add_sub_cancel]
    | none =>
      rw [reserve_append_of_none hl, Option.map_eq_some_iff] at hsome
      obtain ⟨⟨c, cs⟩, hr, heq⟩ := hsome
      cases heq
      obtain ⟨path, right', hfind, hat, hlaid, hblocks⟩ := ihr hright hr
      refine ⟨.right :: path, .inner addr (m + 1) false left right', ?_, hat, ?_, ?_⟩
      · rw [findAndSplit_none hleft hl]
        simp only [hfind]
        rfl
      · exact ⟨haddr, rfl, rfl, m, rfl, hleft, hlaid⟩
      · show leafBlocks offset left ++ leafBlocks (offset + 2 ^ (m + 1 - 1)) (right'.mark path) = _
        rw [Nat.add_sub_cancel, hblocks]

end Tree

/-! ## The order of a request -/

section Order

variable {size : UInt64} {minOrder k : ℕ}

theorem shift_lt_iff {order : ℕ} (h : order ≤ 63) :
    UInt64.ofNat (2 ^ order) < size ↔ 2 ^ order < size.toNat := by
  have hlt : 2 ^ order < 2 ^ 64 := Nat.pow_lt_pow_right (by decide) (by omega)
  rw [UInt64.lt_iff_toNat_lt, UInt64.toNat_ofNat_of_lt' hlt]

theorem targetOrderFor_least (hsize : size.toNat ≤ 2 ^ 63) {rounds order : ℕ}
    (hrounds : order + rounds = 64) (horder : order ≤ 63) :
    ∃ k, targetOrderFor size rounds order = some k ∧
      IsLeast {k | order ≤ k ∧ size.toNat ≤ 2 ^ k} k := by
  induction rounds generalizing order with
  | zero => omega
  | succ rounds ih =>
    have hcond : UInt64.ofNat (2 ^ order) < size ↔ 2 ^ order < size.toNat := shift_lt_iff horder
    rw [targetOrderFor]
    by_cases hlt : 2 ^ order < size.toNat
    · have hne : order ≠ 63 := by
        rintro rfl
        omega
      have hrest : order + 1 + rounds = 64 := by omega
      obtain ⟨k, hk, ⟨hle, hfits⟩, hleast⟩ := ih hrest (by omega)
      refine ⟨k, by rw [if_pos (hcond.mpr hlt), hk], ⟨by omega, hfits⟩, ?_⟩
      intro j hj
      refine hleast ⟨?_, hj.2⟩
      have hstep : order ≠ j := by
        rintro rfl
        exact absurd hj.2 (Nat.not_le.mpr hlt)
      have := hj.1
      omega
    · exact ⟨order, if_neg (mt hcond.mp hlt), ⟨le_refl _, Nat.not_lt.mp hlt⟩, fun j hj => hj.1⟩

/-- The loop ends, at the least order that is large enough. -/
theorem targetOrderFor_isLeast (hsize : size.toNat ≤ 2 ^ 63) (hmin : minOrder ≤ 62) :
    ∃ k, targetOrderFor size (64 - minOrder) minOrder = some k ∧
      IsLeast {k | minOrder ≤ k ∧ size.toNat ≤ 2 ^ k} k :=
  targetOrderFor_least hsize (by omega) (by omega)

/-- The length of the block that serves a request. -/
def blockLength (minOrder : ℕ) (size : UInt64) : ℕ := 2 ^ max minOrder (Nat.clog 2 size.toNat)

theorem blockLength_isLeast (minOrder : ℕ) (size : UInt64) :
    IsLeast {L | (∃ k, L = 2 ^ k) ∧ size.toNat ≤ L ∧ 2 ^ minOrder ≤ L}
      (blockLength minOrder size) := by
  refine ⟨⟨⟨_, rfl⟩, ?_, ?_⟩, ?_⟩
  · have hclog : size.toNat ≤ 2 ^ Nat.clog 2 size.toNat := Nat.le_pow_clog (by decide) _
    exact le_trans hclog (Nat.pow_le_pow_right (by decide) (le_max_right _ _))
  · exact Nat.pow_le_pow_right (by decide) (le_max_left _ _)
  · rintro L ⟨⟨k, rfl⟩, hfits, hle⟩
    refine Nat.pow_le_pow_right (by decide) (max_le ?_ (Nat.clog_le_of_le_pow hfits))
    exact (Nat.pow_le_pow_iff_right (by decide)).mp hle

theorem blockLength_eq (hk : IsLeast {k | minOrder ≤ k ∧ size.toNat ≤ 2 ^ k} k) :
    blockLength minOrder size = 2 ^ k := by
  obtain ⟨⟨hle, hfits⟩, hleast⟩ := hk
  have hmem : max minOrder (Nat.clog 2 size.toNat) ∈
      {k | minOrder ≤ k ∧ size.toNat ≤ 2 ^ k} := by
    refine ⟨le_max_left _ _, ?_⟩
    exact le_trans (Nat.le_pow_clog (by decide) _)
      (Nat.pow_le_pow_right (by decide) (le_max_right _ _))
  have heq : max minOrder (Nat.clog 2 size.toNat) = k :=
    le_antisymm (max_le hle (Nat.clog_le_of_le_pow hfits)) (hleast hmem)
  rw [blockLength, heq]

end Order

/-! ## One call -/

/-- The tree of the allocator is laid out from its base, and its leaves are buddy blocks. -/
structure BuddySound (base : UInt64) (minOrder maxOrder : ℕ) (ba : BuddyAllocator) : Prop where
  base_eq : ba.baseAddr = base
  min_eq : ba.minOrder = minOrder
  max_eq : ba.maxOrder = maxOrder
  laid : Laid base 0 maxOrder ba.root
  ok : BuddyOk (2 ^ maxOrder) (leafBlocks 0 ba.root)

section Call

variable {base : UInt64} {minOrder maxOrder k : ℕ} {ba : BuddyAllocator} {size : UInt64}

theorem buddySound_new (base : UInt64) (minOrder maxOrder : ℕ) :
    BuddySound base minOrder maxOrder (newBuddyAllocator base minOrder maxOrder) := by
  refine ⟨rfl, rfl, rfl, ⟨?_, rfl⟩, BuddyOk.single maxOrder⟩
  simp [addrOf]

/-- **What `Allocate` can do** with a request of order `k`. -/
theorem allocate_cases (h : BuddySound base minOrder maxOrder ba)
    (hk : targetOrderFor size (64 - minOrder) minOrder = some k) :
    (∃ b bs root, k ≤ maxOrder ∧ reserve k (leafBlocks 0 ba.root) = some (b, bs) ∧
      ba.allocate size = some (.ok (addrOf base b.offset), { ba with root := root }) ∧
      leafBlocks 0 root = bs ∧ BuddySound base minOrder maxOrder { ba with root := root }) ∨
    ((maxOrder < k ∨ reserve k (leafBlocks 0 ba.root) = none) ∧
      ∃ e, ba.allocate size = some (.error e, ba)) := by
  obtain ⟨rfl, rfl, rfl, hlaid, hok⟩ := h
  rw [BuddyAllocator.allocate, hk, Option.map_some]
  by_cases hlt : ba.maxOrder < k
  · exact .inr ⟨.inl hlt, _, by rw [if_pos hlt]⟩
  rw [if_neg hlt]
  cases hr : reserve k (leafBlocks 0 ba.root) with
  | none =>
    refine .inr ⟨.inr rfl, .noBlock k, ?_⟩
    rw [findAndSplit_none hlaid hr]
  | some r =>
    obtain ⟨b, bs⟩ := r
    obtain ⟨path, node, hfind, haddr, hlaid', hblocks⟩ := findAndSplit_some hlaid hr
    refine .inl ⟨b, bs, node.mark path, Nat.not_lt.mp hlt, rfl, ?_, hblocks, ?_⟩
    · rw [hfind]
      simp only [haddr]
    · refine ⟨rfl, rfl, rfl, hlaid', ?_⟩
      show BuddyOk _ (leafBlocks 0 (node.mark path))
      rw [hblocks]
      exact hok.reserve hr

end Call

/-! ## Runs -/

def leafTile (l : BuddyLeaf) : Tile := ⟨l.addr.toNat, 2 ^ l.order, l.isAllocated⟩

/-- The bytes of two granted blocks do not overlap. -/
def GrantsApart (minOrder : ℕ) (g g' : Grant) : Prop :=
  g.addr.toNat + blockLength minOrder g.size ≤ g'.addr.toNat ∨
    g'.addr.toNat + blockLength minOrder g'.size ≤ g.addr.toNat

/-- The block of a grant, as it stands in the tree. -/
def IsGrant (base : UInt64) (minOrder : ℕ) (b : BuddyBlock) (g : Grant) : Prop :=
  b.used = true ∧ g.addr = addrOf base b.offset ∧ b.length = blockLength minOrder g.size

/-- Every granted block stands in the tree, and no two overlap. -/
structure GrantsSound (base : UInt64) (minOrder maxOrder : ℕ)
    (st : BuddyAllocator × List Grant) : Prop where
  sound : BuddySound base minOrder maxOrder st.1
  held : ∀ g ∈ st.2, ∃ b ∈ leafBlocks 0 st.1.root, IsGrant base minOrder b g
  apart : st.2.Pairwise (GrantsApart minOrder)

section Runs

variable {base : UInt64} {minOrder maxOrder k : ℕ} {ba : BuddyAllocator} {size : UInt64}
  {bs : List BuddyBlock} {b c : BuddyBlock} {st st' : BuddyAllocator × List Grant}

/-- The blocks of a range that ends below `2 ^ 64` lie at their offsets from the base. -/
theorem toNat_addrOf (hbase : base.toNat + 2 ^ maxOrder ≤ 2 ^ 64) (h : BuddyOk (2 ^ maxOrder) bs)
    (hb : b ∈ bs) : (addrOf base b.offset).toNat = base.toNat + b.offset := by
  have hbounds := h.bounds hb
  have hpos : 0 < b.length := Nat.pow_pos (by decide)
  have hlt : b.offset < 2 ^ 64 := by omega
  rw [addrOf, UInt64.toNat_add, UInt64.toNat_ofNat_of_lt' hlt]
  exact Nat.mod_eq_of_lt (by omega)

/-- **The leaves tile the range.** -/
theorem BuddySound.leaves_tile (h : BuddySound base minOrder maxOrder ba)
    (hbase : base.toNat + 2 ^ maxOrder ≤ 2 ^ 64) :
    Tiles base.toNat ((leaves ba.root).map leafTile) (base.toNat + 2 ^ maxOrder) := by
  have heq : (leaves ba.root).map leafTile =
      ((leafBlocks 0 ba.root).map BuddyBlock.tile).map
        fun t => ⟨base.toNat + t.addr, t.size, t.used⟩ := by
    rw [leaves_eq h.laid, List.map_map, List.map_map]
    refine List.map_congr_left fun b hb => ?_
    simp [leafTile, toNat_addrOf hbase h.ok hb, BuddyBlock.tile, BuddyBlock.length]
  rw [heq]
  exact h.ok.tiles.shift base.toNat

/-- A call that returns keeps the tree sound. -/
theorem BuddySound.request (h : BuddySound base minOrder maxOrder st.1)
    (hcall : BuddyAllocator.request size st = some st') :
    BuddySound base minOrder maxOrder st'.1 := by
  rw [BuddyAllocator.request, Option.map_eq_some_iff] at hcall
  obtain ⟨r, hr, rfl⟩ := hcall
  cases hk : targetOrderFor size (64 - minOrder) minOrder with
  | none =>
    rw [BuddyAllocator.allocate, h.min_eq, hk] at hr
    cases hr
  | some k =>
    rcases allocate_cases h hk with ⟨b, bs, root, -, -, heq, -, hsound⟩ | ⟨-, e, heq⟩
    · rw [heq] at hr
      cases hr
      exact hsound
    · rw [heq] at hr
      cases hr
      exact h

theorem BuddySound.requests {sizes : List UInt64} (h : BuddySound base minOrder maxOrder st.1)
    (hcalls : BuddyAllocator.requests sizes st = some st') :
    BuddySound base minOrder maxOrder st'.1 := by
  induction sizes generalizing st with
  | nil =>
    cases hcalls
    exact h
  | cons size sizes ih =>
    rw [BuddyAllocator.requests, Option.bind_eq_some_iff] at hcalls
    obtain ⟨next, hnext, hrest⟩ := hcalls
    exact ih (h.request hnext) hrest

theorem grantsApart_of_disjoint {g g' : Grant} (hbase : base.toNat + 2 ^ maxOrder ≤ 2 ^ 64)
    (h : BuddyOk (2 ^ maxOrder) bs) (hb : b ∈ bs) (hc : c ∈ bs) (hg : IsGrant base minOrder b g)
    (hg' : IsGrant base minOrder c g') (hdisjoint : b.Disjoint c) :
    GrantsApart minOrder g g' := by
  obtain ⟨-, haddr, hlen⟩ := hg
  obtain ⟨-, haddr', hlen'⟩ := hg'
  unfold GrantsApart
  rw [haddr, haddr', toNat_addrOf hbase h hb, toNat_addrOf hbase h hc, ← hlen, ← hlen']
  exact hdisjoint.imp (by omega) (by omega)

/-- **One call**: it returns, and a new grant overlaps no earlier one. -/
theorem GrantsSound.request (h : GrantsSound base minOrder maxOrder st)
    (hbase : base.toNat + 2 ^ maxOrder ≤ 2 ^ 64) (hmin : minOrder ≤ 62)
    (hsize : size.toNat ≤ 2 ^ 63) :
    ∃ st', BuddyAllocator.request size st = some st' ∧ GrantsSound base minOrder maxOrder st' := by
  obtain ⟨k, hk, hleast⟩ := targetOrderFor_isLeast hsize hmin
  rcases allocate_cases h.sound hk with ⟨b, bs, root, -, hr, heq, rfl, hsound⟩ | ⟨-, e, heq⟩
  · have hused := mem_reserve_used hr
    have hnew := (hused ⟨b.offset, k, true⟩).mpr (.inl rfl)
    have hgrant : IsGrant base minOrder ⟨b.offset, k, true⟩ ⟨size, addrOf base b.offset⟩ :=
      ⟨rfl, rfl, (blockLength_eq hleast).symm⟩
    refine ⟨_, by rw [BuddyAllocator.request, heq]; rfl, hsound, ?_, ?_⟩
    · intro g hg
      rcases List.mem_cons.mp hg with rfl | hg
      · exact ⟨_, hnew.1, hgrant⟩
      · obtain ⟨c, hc, hcg⟩ := h.held g hg
        exact ⟨c, ((hused c).mpr (.inr ⟨hc, hcg.1⟩)).1, hcg⟩
    · refine List.pairwise_cons.mpr ⟨fun g hg => ?_, h.apart⟩
      obtain ⟨c, hc, hcg⟩ := h.held g hg
      have hkept := (hused c).mpr (.inr ⟨hc, hcg.1⟩)
      refine grantsApart_of_disjoint hbase hsound.ok hnew.1 hkept.1 hgrant hcg ?_
      exact (h.sound.ok.reserve_disjoint hr hc hcg.1).symm
  · exact ⟨st, by rw [BuddyAllocator.request, heq]; rfl, h⟩

theorem GrantsSound.requests {sizes : List UInt64} (h : GrantsSound base minOrder maxOrder st)
    (hbase : base.toNat + 2 ^ maxOrder ≤ 2 ^ 64) (hmin : minOrder ≤ 62)
    (hsizes : ∀ size ∈ sizes, size.toNat ≤ 2 ^ 63) :
    ∃ st', BuddyAllocator.requests sizes st = some st' ∧
      GrantsSound base minOrder maxOrder st' := by
  induction sizes generalizing st with
  | nil => exact ⟨st, rfl, h⟩
  | cons size sizes ih =>
    rw [List.forall_mem_cons] at hsizes
    obtain ⟨next, hnext, hsound⟩ := h.request hbase hmin hsizes.1
    obtain ⟨st', hrest, hsound'⟩ := ih hsound hsizes.2
    exact ⟨st', by rw [BuddyAllocator.requests, hnext, Option.bind_some, hrest], hsound'⟩

/-- What a granted block is, in the allocator `ba`. -/
structure GrantedBlock (base : UInt64) (minOrder maxOrder : ℕ) (ba : BuddyAllocator) (g : Grant) :
    Prop where
  tight : IsLeast {L | (∃ k, L = 2 ^ k) ∧ g.size.toNat ≤ L ∧ 2 ^ minOrder ≤ L}
    (blockLength minOrder g.size)
  lower : base.toNat ≤ g.addr.toNat
  upper : g.addr.toNat + blockLength minOrder g.size ≤ base.toNat + 2 ^ maxOrder
  aligned : blockLength minOrder g.size ∣ g.addr.toNat - base.toNat
  /-- The block is an allocated leaf of that length. -/
  leaf : ∃ l ∈ leaves ba.root, l.addr = g.addr ∧ 2 ^ l.order = blockLength minOrder g.size ∧
    l.isAllocated = true

theorem GrantsSound.granted (h : GrantsSound base minOrder maxOrder st)
    (hbase : base.toNat + 2 ^ maxOrder ≤ 2 ^ 64) {g : Grant} (hg : g ∈ st.2) :
    GrantedBlock base minOrder maxOrder st.1 g := by
  obtain ⟨b, hb, hused, haddr, hlen⟩ := h.held g hg
  have hbounds := h.sound.ok.bounds hb
  have hoffset : g.addr.toNat = base.toNat + b.offset := by
    rw [haddr, toNat_addrOf hbase h.sound.ok hb]
  refine ⟨blockLength_isLeast minOrder g.size, ?_, ?_, ?_, ?_⟩
  · omega
  · omega
  · rw [hoffset, Nat.add_sub_cancel_left, ← hlen]
    exact h.sound.ok.aligned b hb
  · refine ⟨⟨addrOf base b.offset, b.order, b.used⟩, ?_, haddr.symm, hlen, hused⟩
    rw [leaves_eq h.sound.laid]
    exact List.mem_map_of_mem hb

/-- **Buddy allocations are disjoint, aligned and tight**, after every sequence of calls. -/
theorem buddy_blocks (base : UInt64) (minOrder maxOrder : ℕ) (hmin : minOrder ≤ maxOrder)
    (hmax : maxOrder ≤ 62) (hbase : base.toNat + 2 ^ maxOrder ≤ 2 ^ 64) (sizes : List UInt64)
    (hsizes : ∀ size ∈ sizes, size.toNat ≤ 2 ^ 63) :
    ∃ ba grants,
      BuddyAllocator.requests sizes (newBuddyAllocator base minOrder maxOrder, []) =
        some (ba, grants) ∧
      (∀ g ∈ grants, GrantedBlock base minOrder maxOrder ba g) ∧
      grants.Pairwise (GrantsApart minOrder) ∧
      Tiles base.toNat ((leaves ba.root).map leafTile) (base.toNat + 2 ^ maxOrder) ∧
      OnlyLeavesAllocated ba.root := by
  have hstart : GrantsSound base minOrder maxOrder
      (newBuddyAllocator base minOrder maxOrder, []) :=
    ⟨buddySound_new base minOrder maxOrder, by simp, List.Pairwise.nil⟩
  obtain ⟨⟨ba, grants⟩, hrun, h⟩ := hstart.requests hbase (by omega) hsizes
  refine ⟨ba, grants, hrun, fun g hg => h.granted hbase hg, h.apart, ?_, h.sound.laid.onlyLeaves⟩
  exact h.sound.leaves_tile hbase

/-- The requests `10`, `100` and `16` in a range of `256` bytes up to the last address. -/
theorem buddy_blocks_three :
    ∃ ba grants,
      BuddyAllocator.requests [10, 100, 16]
        (newBuddyAllocator 0xFFFFFFFFFFFFFF00 4 8, []) = some (ba, grants) ∧
      (∀ g ∈ grants, GrantedBlock 0xFFFFFFFFFFFFFF00 4 8 ba g) ∧
      grants = [⟨16, 0xFFFFFFFFFFFFFF10⟩, ⟨100, 0xFFFFFFFFFFFFFF80⟩, ⟨10, 0xFFFFFFFFFFFFFF00⟩] := by
  have hsizes : ∀ size ∈ ([10, 100, 16] : List UInt64), size.toNat ≤ 2 ^ 63 := by
    rw [List.forall_mem_cons, List.forall_mem_cons, List.forall_mem_singleton]
    decide
  obtain ⟨ba, grants, hrun, hgranted, -⟩ := buddy_blocks 0xFFFFFFFFFFFFFF00 4 8 (by decide)
    (by decide) (by decide) [10, 100, 16] hsizes
  refine ⟨ba, grants, hrun, hgranted, ?_⟩
  have hlog : (BuddyAllocator.requests [10, 100, 16]
      (newBuddyAllocator 0xFFFFFFFFFFFFFF00 4 8, [])).map Prod.snd =
      some [⟨16, 0xFFFFFFFFFFFFFF10⟩, ⟨100, 0xFFFFFFFFFFFFFF80⟩, ⟨10, 0xFFFFFFFFFFFFFF00⟩] := by
    decide
  rw [hrun] at hlog
  exact Option.some.inj hlog

end Runs

/-! ## When a call fails -/

/-- The leaf can serve a request of order `k`. -/
def LeafFits (k : ℕ) (l : BuddyLeaf) : Prop := l.isAllocated = false ∧ k ≤ l.order

section Failure

variable {base : UInt64} {minOrder maxOrder k : ℕ} {ba : BuddyAllocator} {size : UInt64}

theorem leafFits_iff (base : UInt64) (b : BuddyBlock) :
    LeafFits k ⟨addrOf base b.offset, b.order, b.used⟩ ↔ b.serves k = true :=
  BuddyBlock.serves_iff.symm

/-- **Buddy allocation fails only when it must**, and then changes nothing. -/
theorem buddy_fails_only_when_full (base : UInt64) (minOrder maxOrder : ℕ)
    (hmin : minOrder ≤ maxOrder) (hmax : maxOrder ≤ 62) (sizes : List UInt64)
    (ba : BuddyAllocator) (grants : List Grant)
    (hrun : BuddyAllocator.requests sizes (newBuddyAllocator base minOrder maxOrder, []) =
      some (ba, grants))
    (size : UInt64) (hsize : size.toNat ≤ 2 ^ 63) (k : ℕ)
    (hk : IsLeast {k | minOrder ≤ k ∧ size.toNat ≤ 2 ^ k} k) :
    ∃ result ba', ba.allocate size = some (result, ba') ∧
      ((∃ addr, result = .ok addr) ↔
        k ≤ maxOrder ∧ ∃ l ∈ leaves ba.root, LeafFits k l) ∧
      (∀ addr, result = .ok addr → ∃ xs l ys, leaves ba.root = xs ++ l :: ys ∧
        (∀ x ∈ xs, ¬ LeafFits k x) ∧ LeafFits k l ∧ l.addr = addr) ∧
      ∀ e, result = .error e → ba' = ba := by
  let start : BuddyAllocator × List Grant := (newBuddyAllocator base minOrder maxOrder, [])
  have hstart : BuddySound base minOrder maxOrder start.1 := buddySound_new base minOrder maxOrder
  have hsound : BuddySound base minOrder maxOrder ba := hstart.requests hrun
  have hmin : minOrder ≤ 62 := by omega
  obtain ⟨j, hj, hleast⟩ := targetOrderFor_isLeast hsize hmin
  obtain rfl : j = k := le_antisymm (hleast.2 hk.1) (hk.2 hleast.1)
  have hleaves := leaves_eq hsound.laid
  rcases allocate_cases hsound hj with ⟨b, bs, root, hle, hr, heq, -, -⟩ | ⟨hfull, e, heq⟩
  · obtain ⟨xs, ys, hsplit, hxs, hb, -⟩ := reserve_eq_some hr
    have hfits := (leafFits_iff base b).mpr hb
    refine ⟨_, _, heq, ⟨fun _ => ⟨hle, _, ?_, hfits⟩, fun _ => ⟨_, rfl⟩⟩, ?_, ?_⟩
    · rw [hleaves, hsplit, List.map_append, List.map_cons]
      exact List.mem_append_right _ List.mem_cons_self
    · intro addr haddr
      refine ⟨_, _, _, by rw [hleaves, hsplit, List.map_append, List.map_cons], ?_, hfits, ?_⟩
      · intro x hx hxfits
        obtain ⟨c, hc, rfl⟩ := List.mem_map.mp hx
        rw [leafFits_iff, hxs c hc] at hxfits
        cases hxfits
      · exact Except.ok.inj haddr
    · intro e he
      cases he
  · refine ⟨_, _, heq, ⟨?_, ?_⟩, ?_, fun _ _ => rfl⟩
    · rintro ⟨addr, haddr⟩
      cases haddr
    · rintro ⟨hle, l, hl, hfits⟩
      rcases hfull with hlt | hnone
      · omega
      · rw [hleaves] at hl
        obtain ⟨c, hc, rfl⟩ := List.mem_map.mp hl
        rw [leafFits_iff, reserve_eq_none_iff.mp hnone c hc] at hfits
        cases hfits
    · intro addr haddr
      cases haddr

/-- A range of `256` bytes that wraps around, with one small block in use: a request for `200`
bytes needs the whole range. -/
theorem buddy_fails_only_when_full_large :
    ∃ ba grants,
      BuddyAllocator.requests [10] (newBuddyAllocator 0xFFFFFFFFFFFFFFC0 4 8, []) =
        some (ba, grants) ∧
      ∃ result ba', ba.allocate 200 = some (result, ba') ∧
        ((∃ addr, result = .ok addr) ↔ 8 ≤ 8 ∧ ∃ l ∈ leaves ba.root, LeafFits 8 l) ∧
        ∀ e, result = .error e → ba' = ba := by
  have hleast : IsLeast {k | 4 ≤ k ∧ (200 : UInt64).toNat ≤ 2 ^ k} 8 := by
    refine ⟨by decide, fun j hj => ?_⟩
    by_contra hlt
    have hsmall : 2 ^ j ≤ 2 ^ 7 := Nat.pow_le_pow_right (by decide) (by omega)
    have hfits : 200 ≤ 2 ^ j := hj.2
    omega
  refine ⟨_, _, rfl, ?_⟩
  obtain ⟨result, ba', hcall, hiff, -, herr⟩ := buddy_fails_only_when_full 0xFFFFFFFFFFFFFFC0 4 8
    (by decide) (by decide) [10] _ _ rfl 200 (by decide) 8 hleast
  exact ⟨result, ba', hcall, hiff, herr⟩

end Failure

/-! ## When a call returns -/

/-- The search for the order gets to one that is large enough, in 64-bit arithmetic. -/
def OrderSearchEnds (minOrder : ℕ) (size : UInt64) : Prop :=
  ∃ order ≥ minOrder, ¬ UInt64.ofNat (2 ^ order) < size

/-- The call returns, and it refuses what exceeds the capacity without touching the tree. -/
structure AllocateReturns (ba : BuddyAllocator) (size : UInt64) : Prop where
  search_ends : OrderSearchEnds ba.minOrder size
  returns : ∃ result, ba.allocate size = some result
  refuses : 2 ^ ba.maxOrder < size.toNat →
    ba.allocate size = some (.error (.exceedsCapacity size ba.maxOrder), ba)

section Termination

variable {size : UInt64} {ba : BuddyAllocator}

theorem shift_eq_zero {order : ℕ} (h : 64 ≤ order) : UInt64.ofNat (2 ^ order) = 0 := by
  apply UInt64.toNat_inj.mp
  rw [UInt64.toNat_ofNat']
  exact Nat.mod_eq_zero_of_dvd (Nat.pow_dvd_pow 2 h)

/-- **The search ends exactly for sizes up to `2 ^ 63`**: the shifted bit is lost from order `64`
on. -/
theorem orderSearchEnds_iff {minOrder : ℕ} (hmin : minOrder ≤ 62) :
    OrderSearchEnds minOrder size ↔ size.toNat ≤ 2 ^ 63 := by
  constructor
  · rintro ⟨order, -, hge⟩
    by_cases horder : order ≤ 63
    · rw [shift_lt_iff horder, Nat.not_lt] at hge
      exact hge.trans (Nat.pow_le_pow_right (by decide) horder)
    · rw [shift_eq_zero (by omega), UInt64.not_lt] at hge
      have hzero : size.toNat ≤ 0 := UInt64.le_iff_toNat_le.mp hge
      omega
  · intro hsize
    refine ⟨63, by omega, ?_⟩
    rw [shift_lt_iff le_rfl]
    omega

/-- What the loop returns is an order that is large enough. -/
theorem targetOrderFor_ends {rounds order k : ℕ} (h : targetOrderFor size rounds order = some k) :
    OrderSearchEnds order size := by
  induction rounds generalizing order with
  | zero =>
    rw [targetOrderFor] at h
    split_ifs at h with hlt
    exact ⟨order, le_rfl, hlt⟩
  | succ rounds ih =>
    rw [targetOrderFor] at h
    split_ifs at h with hlt
    · obtain ⟨j, hj, hge⟩ := ih h
      exact ⟨j, Nat.le_of_succ_le hj, hge⟩
    · exact ⟨order, le_rfl, hlt⟩

theorem allocate_refuses (hmin : ba.minOrder ≤ 62) (hsize : size.toNat ≤ 2 ^ 63)
    (hlarge : 2 ^ ba.maxOrder < size.toNat) :
    ba.allocate size = some (.error (.exceedsCapacity size ba.maxOrder), ba) := by
  obtain ⟨k, hk, ⟨-, hfits⟩, -⟩ := targetOrderFor_isLeast hsize hmin
  have hexceeds : ba.maxOrder < k :=
    (Nat.pow_lt_pow_iff_right (by decide)).mp (Nat.lt_of_lt_of_le hlarge hfits)
  rw [BuddyAllocator.allocate, hk, Option.map_some, if_pos hexceeds]

end Termination

/-- **`Allocate` returns exactly for sizes up to `2 ^ 63`**, whatever the tree; then it refuses
sizes above the capacity and leaves the tree as it is.
SOURCE: pkg/memory/allocator.go:217-233 -/
theorem allocateReturns_iff (ba : BuddyAllocator) (hmin : ba.minOrder ≤ ba.maxOrder)
    (hmax : ba.maxOrder ≤ 62) (size : UInt64) :
    AllocateReturns ba size ↔ size.toNat ≤ 2 ^ 63 := by
  have hmin : ba.minOrder ≤ 62 := by omega
  refine ⟨fun h => (orderSearchEnds_iff hmin).mp h.search_ends, fun hsize => ?_⟩
  obtain ⟨k, hk, -⟩ := targetOrderFor_isLeast hsize hmin
  refine ⟨(orderSearchEnds_iff hmin).mpr hsize, ?_, allocate_refuses hmin hsize⟩
  rw [BuddyAllocator.allocate, hk, Option.map_some]
  exact ⟨_, rfl⟩

theorem allocateReturns_large : AllocateReturns (newBuddyAllocator 0 4 10) 0x8000000000000000 :=
  (allocateReturns_iff (newBuddyAllocator 0 4 10) (by decide) (by decide) _).mpr (by decide)

/-- A request for `2 ^ 63 + 1` bytes keeps `Allocate` in its loop. -/
theorem allocate_loops :
    ¬ OrderSearchEnds 4 0x8000000000000001 ∧
      (newBuddyAllocator 0 4 10).allocate 0x8000000000000001 = none ∧
      ¬ AllocateReturns (newBuddyAllocator 0 4 10) 0x8000000000000001 := by
  have hsearch : ¬ OrderSearchEnds 4 0x8000000000000001 := by
    rw [orderSearchEnds_iff (by decide)]
    decide
  refine ⟨hsearch, ?_, fun h => hsearch h.search_ends⟩
  cases hcall : (newBuddyAllocator 0 4 10).allocate 0x8000000000000001 with
  | none => rfl
  | some result =>
    obtain ⟨k, hk, -⟩ := Option.map_eq_some_iff.mp hcall
    exact absurd (targetOrderFor_ends hk) hsearch

end OsSimulator.Analysis
