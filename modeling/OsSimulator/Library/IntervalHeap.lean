import Mathlib.Data.List.MinMax
import Mathlib.Data.List.Pairwise
import OsSimulator.Library.TaggedTiling

/-!
# Heaps of disjoint live intervals

What an allocator is for, without a list and without free blocks: a range of addresses,
and a finite set of disjoint intervals in it that are live.  A gap is a maximal interval
that meets no live one.  `FirstFit` and `BestFit` say which gap a request is served from.

A coalesced tiling represents such a heap (`TilingOk.heap`).  Its free tiles are exactly
the gaps (`TilingOk.isGap_iff`), so a search through the tiles in order finds the gap that
first fit or best fit asks for.
-/

set_option autoImplicit false

namespace OsSimulator.Library

/-- An interval is given by its first address and its length. -/
structure IntervalHeap (start total : ℕ) where
  live : Finset (ℕ × ℕ)
  inside : ∀ i ∈ live, start ≤ i.1 ∧ i.1 + i.2 ≤ start + total
  pos : ∀ i ∈ live, 0 < i.2
  disjoint : ∀ i ∈ live, ∀ j ∈ live, i ≠ j → i.1 + i.2 ≤ j.1 ∨ j.1 + j.2 ≤ i.1

namespace IntervalHeap

variable {start total : ℕ} (heap : IntervalHeap start total)

def Taken (x : ℕ) : Prop := ∃ i ∈ heap.live, i.1 ≤ x ∧ x < i.1 + i.2

/-- A nonempty interval of the heap that meets no live one. -/
structure FreeRange (a len : ℕ) : Prop where
  pos : 0 < len
  lower : start ≤ a
  upper : a + len ≤ start + total
  free : ∀ x, a ≤ x → x < a + len → ¬ heap.Taken x

/-- A gap is a free range that no larger free range contains. -/
structure IsGap (a len : ℕ) : Prop extends heap.FreeRange a len where
  maximal : ∀ a' len', heap.FreeRange a' len' → a' ≤ a → a + len ≤ a' + len' →
    a' = a ∧ len' = len

/-- The lowest gap that is large enough. -/
structure FirstFit (size a len : ℕ) : Prop where
  gap : heap.IsGap a len
  fits : size ≤ len
  lowest : ∀ a' len', heap.IsGap a' len' → size ≤ len' → a ≤ a'

/-- The smallest gap that is large enough, and the lowest among those. -/
structure BestFit (size a len : ℕ) : Prop where
  gap : heap.IsGap a len
  fits : size ≤ len
  smallest : ∀ a' len', heap.IsGap a' len' → size ≤ len' → len < len' ∨ len = len' ∧ a ≤ a'

/-- The gap that a request is served from, in either mode. -/
def Serves (bestFit : Bool) (size a len : ℕ) : Prop :=
  if bestFit then heap.BestFit size a len else heap.FirstFit size a len

variable {heap} {a len a' len' : ℕ}

theorem Serves.gap {bestFit : Bool} {size : ℕ} (h : heap.Serves bestFit size a len) :
    heap.IsGap a len ∧ size ≤ len := by
  cases bestFit with
  | false => exact ⟨FirstFit.gap h, FirstFit.fits h⟩
  | true => exact ⟨BestFit.gap h, BestFit.fits h⟩

/-- A free range lies beside every live interval. -/
theorem FreeRange.apart (h : heap.FreeRange a len) {i : ℕ × ℕ} (hi : i ∈ heap.live) :
    i.1 + i.2 ≤ a ∨ a + len ≤ i.1 := by
  by_contra hmeet
  have hpos := heap.pos i hi
  have hlen := h.pos
  exact h.free (max a i.1) (by omega) (by omega) ⟨i, hi, by omega, by omega⟩

/-- Two free ranges that meet form one. -/
theorem FreeRange.join (h : heap.FreeRange a len) (h' : heap.FreeRange a' len') (hle : a' ≤ a)
    (hmeet : a < a' + len') : heap.FreeRange a' (max (a + len) (a' + len') - a') := by
  have hpos := h'.pos
  have hupper := h.upper
  have hupper' := h'.upper
  refine ⟨by omega, h'.lower, by omega, ?_⟩
  intro x hx hlt
  by_cases hin : x < a' + len'
  · exact h'.free x hx hin
  · exact h.free x (by omega) (by omega)

/-- A gap that meets a free range contains it. -/
theorem IsGap.contains (h : heap.IsGap a len) (h' : heap.FreeRange a' len')
    (hleft : a < a' + len') (hright : a' < a + len) : a ≤ a' ∧ a' + len' ≤ a + len := by
  rcases Nat.le_total a' a with hle | hle
  · obtain ⟨haddr, hlen⟩ := h.maximal _ _ (h.toFreeRange.join h' hle hleft) hle (by omega)
    omega
  · obtain ⟨haddr, hlen⟩ := h.maximal _ _ (h'.join h.toFreeRange hle hright) (le_refl a) (by omega)
    omega

end IntervalHeap

/-! ## The heap of a tiling -/

section TilingHeap

variable {start total : ℕ} {bs : List Tile} {b : Tile}

theorem TilingOk.apart (h : TilingOk start total bs) {c : Tile} (hb : b ∈ bs) (hc : c ∈ bs)
    (hne : b ≠ c) (hpos : 0 < b.size) (hpos' : 0 < c.size) :
    b.addr + b.size ≤ c.addr ∨ c.addr + c.size ≤ b.addr := by
  by_contra hmeet
  refine hne (h.tiles.covers_unique (x := max b.addr c.addr) hb hc ?_ ?_)
  · exact ⟨by omega, by omega⟩
  · exact ⟨by omega, by omega⟩

/-- The used tiles of a well-formed tiling are the live intervals of a heap. -/
def TilingOk.heap (h : TilingOk start total bs) : IntervalHeap start total where
  live := liveIntervals bs
  inside := by
    intro i hi
    obtain ⟨b, hb, -, rfl⟩ := mem_liveIntervals.mp hi
    exact h.tiles.mem_bounds hb
  pos := by
    intro i hi
    obtain ⟨b, hb, hused, rfl⟩ := mem_liveIntervals.mp hi
    exact h.pos b hb (.inl hused)
  disjoint := by
    intro i hi j hj hne
    obtain ⟨b, hb, hbused, rfl⟩ := mem_liveIntervals.mp hi
    obtain ⟨c, hc, hcused, rfl⟩ := mem_liveIntervals.mp hj
    refine h.apart hb hc ?_ (h.pos b hb (.inl hbused)) (h.pos c hc (.inl hcused))
    rintro rfl
    exact hne rfl

variable (h : TilingOk start total bs)

theorem TilingOk.taken_iff {x : ℕ} :
    h.heap.Taken x ↔ ∃ b ∈ bs, b.used = true ∧ b.Covers x := by
  constructor
  · rintro ⟨i, hi, hx⟩
    obtain ⟨b, hb, hused, rfl⟩ := mem_liveIntervals.mp hi
    exact ⟨b, hb, hused, hx⟩
  · rintro ⟨b, hb, hused, hx⟩
    exact ⟨_, mem_liveIntervals.mpr ⟨b, hb, hused, rfl⟩, hx⟩

theorem TilingOk.freeRange_of_free (hb : b ∈ bs) (hfree : b.used = false) (hpos : 0 < b.size) :
    h.heap.FreeRange b.addr b.size := by
  obtain ⟨hlower, hupper⟩ := h.tiles.mem_bounds hb
  refine ⟨hpos, hlower, hupper, ?_⟩
  intro x hx hlt htaken
  obtain ⟨c, hc, hused, hcov⟩ := h.taken_iff.mp htaken
  obtain rfl := h.tiles.covers_unique hc hb hcov ⟨hx, hlt⟩
  rw [hfree] at hused
  cases hused

/-- The address before a free tile is taken, unless the tile is the first. -/
theorem TilingOk.taken_before (hb : b ∈ bs) (hfree : b.used = false) (hlt : start < b.addr) :
    h.heap.Taken (b.addr - 1) := by
  obtain ⟨xs, ys, rfl⟩ := List.append_of_mem hb
  obtain ⟨hxs, -⟩ := tiles_middle.mp h.tiles
  rcases List.eq_nil_or_concat' xs with rfl | ⟨xs', p, rfl⟩
  · have : start = b.addr := hxs
    omega
  · obtain ⟨-, -, hlast⟩ := coalesced_append.mp h.coalesced
    have hused : p.used = true := by simpa [hfree] using hlast
    obtain ⟨-, hend⟩ := tiles_middle.mp hxs
    have hend : p.addr + p.size = b.addr := hend
    have hpos : 0 < p.size := h.pos p (by simp) (.inl hused)
    refine h.taken_iff.mpr ⟨p, by simp, hused, ?_⟩
    unfold Tile.Covers
    omega

/-- The address after a free tile is taken, unless the tile is the last. -/
theorem TilingOk.taken_after (hb : b ∈ bs) (hfree : b.used = false)
    (hlt : b.addr + b.size < start + total) : h.heap.Taken (b.addr + b.size) := by
  obtain ⟨xs, ys, rfl⟩ := List.append_of_mem hb
  obtain ⟨-, hys⟩ := tiles_middle.mp h.tiles
  obtain ⟨-, hcoal, -⟩ := coalesced_append.mp h.coalesced
  obtain ⟨hhead, -⟩ := coalesced_cons.mp hcoal
  cases ys with
  | nil =>
    have : b.addr + b.size = start + total := hys
    omega
  | cons n ys =>
    have hused : n.used = true := by simpa [hfree] using hhead
    have hpos : 0 < n.size := h.pos n (by simp) (.inl hused)
    have haddr : n.addr = b.addr + b.size := hys.1
    refine h.taken_iff.mpr ⟨n, by simp, hused, ?_⟩
    unfold Tile.Covers
    omega

theorem TilingOk.isGap_of_free (hb : b ∈ bs) (hfree : b.used = false) (hpos : 0 < b.size) :
    h.heap.IsGap b.addr b.size := by
  refine ⟨h.freeRange_of_free hb hfree hpos, ?_⟩
  intro a len hrange hle hend
  have hlower := hrange.lower
  have hupper := hrange.upper
  have haddr : a = b.addr := by
    by_contra hne
    refine hrange.free (b.addr - 1) (by omega) (by omega) (h.taken_before hb hfree (by omega))
  have hlen : ¬ b.addr + b.size < a + len := by
    intro hlt
    exact hrange.free (b.addr + b.size) (by omega) hlt (h.taken_after hb hfree (by omega))
  omega

/-- **Gaps are free tiles.** -/
theorem TilingOk.isGap_iff {a len : ℕ} :
    h.heap.IsGap a len ↔ 0 < len ∧ ∃ b ∈ bs, b.used = false ∧ b.addr = a ∧ b.size = len := by
  constructor
  · intro hgap
    have hpos := hgap.pos
    have hupper := hgap.upper
    obtain ⟨b, hb, hcov⟩ := h.tiles.exists_covers hgap.lower (by omega)
    have hfree : b.used = false := by
      by_contra hused
      exact hgap.free a (le_refl a) (by omega)
        (h.taken_iff.mpr ⟨b, hb, by simpa using hused, hcov⟩)
    unfold Tile.Covers at hcov
    have hbgap := h.isGap_of_free hb hfree (by omega)
    have hin := hbgap.contains hgap.toFreeRange (by omega) (by omega)
    obtain ⟨haddr, hsize⟩ := hgap.maximal _ _ hbgap.toFreeRange hcov.1 hin.2
    exact ⟨hpos, b, hb, hfree, haddr, hsize⟩
  · rintro ⟨hpos, b, hb, hfree, rfl, rfl⟩
    exact h.isGap_of_free hb hfree hpos

end TilingHeap

/-! ## A tiling is determined by its used tiles -/

section Determined

variable {start total : ℕ} {bs cs : List Tile} {b : Tile}

theorem IntervalHeap.eq_of_live {heap heap' : IntervalHeap start total}
    (h : heap.live = heap'.live) : heap = heap' := by
  cases heap
  cases heap'
  cases h
  rfl

theorem TilingOk.mem_of_live (h : TilingOk start total bs) (h' : TilingOk start total cs)
    (htotal : 0 < total) (hlive : liveIntervals bs = liveIntervals cs) (hb : b ∈ bs) : b ∈ cs := by
  obtain ⟨addr, size, used⟩ := b
  cases used with
  | true =>
    have hmem : (addr, size) ∈ liveIntervals cs := by
      rw [← hlive]
      exact mem_liveIntervals.mpr ⟨_, hb, rfl, rfl⟩
    obtain ⟨⟨addr', size', used'⟩, hc, hused, heq⟩ := mem_liveIntervals.mp hmem
    cases heq
    cases (hused : used' = true)
    exact hc
  | false =>
    have hgap := h.isGap_of_free hb rfl (h.pos _ hb (.inr htotal))
    have hheap : h.heap = h'.heap := IntervalHeap.eq_of_live hlive
    rw [hheap] at hgap
    obtain ⟨-, ⟨addr', size', used'⟩, hc, hfree, haddr, hsize⟩ := h'.isGap_iff.mp hgap
    cases (haddr : addr' = addr)
    cases (hsize : size' = size)
    cases (hfree : used' = false)
    exact hc

theorem TilingOk.pairwise_lt (h : TilingOk start total bs) (htotal : 0 < total) :
    bs.Pairwise fun b c => b.addr < c.addr := by
  have htiles := h.tiles
  have hpos : ∀ b ∈ bs, 0 < b.size := fun b hb => h.pos b hb (.inr htotal)
  clear h
  generalize start + total = e at htiles
  induction bs generalizing start with
  | nil => exact List.Pairwise.nil
  | cons b bs ih =>
    obtain ⟨haddr, hrest⟩ := htiles
    rw [List.forall_mem_cons] at hpos
    refine List.pairwise_cons.mpr ⟨?_, ih hpos.2 hrest⟩
    intro c hc
    have := hrest.mem_bounds hc
    omega

/-- **Two coalesced tilings of a range with the same used tiles are the same.** -/
theorem TilingOk.eq_of_live (h : TilingOk start total bs) (h' : TilingOk start total cs)
    (htotal : 0 < total) (hlive : liveIntervals bs = liveIntervals cs) : bs = cs := by
  have hbs := h.pairwise_lt htotal
  have hcs := h'.pairwise_lt htotal
  have hperm : bs.Perm cs := by
    refine (List.perm_ext_iff_of_nodup (hbs.imp ?_) (hcs.imp ?_)).mpr fun b => ⟨?_, ?_⟩
    · rintro b _ hlt rfl
      exact lt_irrefl _ hlt
    · rintro b _ hlt rfl
      exact lt_irrefl _ hlt
    · exact h.mem_of_live h' htotal hlive
    · exact h'.mem_of_live h htotal hlive.symm
  exact hperm.eq_of_pairwise (fun b c _ _ hlt hgt => absurd hgt (lt_asymm hlt)) hbs hcs

/-- Without used tiles there is only one. -/
theorem TilingOk.eq_single (h : TilingOk start total bs) (hne : bs ≠ [])
    (hfree : ∀ b ∈ bs, b.used = false) : bs = [⟨start, total, false⟩] := by
  cases bs with
  | nil => exact absurd rfl hne
  | cons b bs =>
    rw [List.forall_mem_cons] at hfree
    cases bs with
    | nil =>
      obtain ⟨haddr, hsize⟩ := h.tiles
      obtain ⟨addr, size, used⟩ := b
      cases (haddr : addr = start)
      cases (Nat.add_left_cancel hsize : size = total)
      cases (hfree.1 : used = false)
      rfl
    | cons c bs =>
      rw [List.forall_mem_cons] at hfree
      have hpair := (coalesced_cons.mp h.coalesced).1 c rfl
      simp [hfree.1, hfree.2.1] at hpair

/-- No two tiles start at the same address.  In an empty range there is only one tile. -/
theorem TilingOk.addr_nodup (h : TilingOk start total bs) : (bs.map Tile.addr).Nodup := by
  rcases Nat.eq_zero_or_pos total with hzero | htotal
  · have hfree : ∀ b ∈ bs, b.used = false := by
      intro b hb
      by_contra hused
      have hpos := h.pos b hb (.inl (Bool.eq_true_of_not_eq_false hused))
      have hbounds := h.tiles.mem_bounds hb
      omega
    by_cases hne : bs = []
    · rw [hne]
      exact List.nodup_nil
    · rw [h.eq_single hne hfree]
      exact List.nodup_singleton _
  · refine List.pairwise_map.mpr ((h.pairwise_lt htotal).imp fun hlt heq => ?_)
    exact absurd heq hlt.ne

end Determined

/-! ## Searching the tiles

The tiles are found under names of any type `P`, in the order of their addresses. -/

def fits (size : ℕ) (b : Tile) : Bool := !b.used && decide (size ≤ b.size)

theorem fits_iff {size : ℕ} {b : Tile} : fits size b = true ↔ b.used = false ∧ size ≤ b.size := by
  simp [fits]

/-- Best fit as one pass over the list: a later tile replaces an earlier one only if it is
smaller. -/
def bestStep {P : Type*} (ok : P → Bool) (key : P → ℕ) (chosen : Option P) (p : P) : Option P :=
  if ok p then
    match chosen with
    | none => some p
    | some c => if key p < key c then some p else some c
  else chosen

section Search

variable {P : Type*} {start total size : ℕ} {f : P → Tile} {ps : List P} {p : P}

theorem foldl_bestStep (ok : P → Bool) (key : P → ℕ) (ps : List P) :
    ps.foldl (bestStep ok key) none = (ps.filter ok).argmin key := by
  have hstep (o : Option P) : ps.foldl (bestStep ok key) o =
      (ps.filter ok).foldl (List.argAux fun b c => key b < key c) o := by
    rw [List.foldl_filter]
    congr 1
    funext chosen p
    cases chosen <;> rfl
  exact hstep none

theorem TilingOk.pairwise_addr (h : TilingOk start total (ps.map f)) :
    ps.Pairwise fun p q => (f p).addr ≤ (f q).addr := by
  have htiles := h.tiles
  clear h
  generalize start + total = e at htiles
  induction ps generalizing start with
  | nil => exact List.Pairwise.nil
  | cons p ps ih =>
    obtain ⟨haddr, hrest⟩ := htiles
    refine List.pairwise_cons.mpr ⟨?_, ih hrest⟩
    intro q hq
    have := hrest.mem_bounds (List.mem_map_of_mem hq)
    omega

/-- A gap that is large enough has a tile that the search accepts. -/
theorem TilingOk.exists_fits (h : TilingOk start total (ps.map f)) {a len : ℕ}
    (hgap : h.heap.IsGap a len) (hsize : size ≤ len) :
    ∃ p ∈ ps, fits size (f p) = true ∧ (f p).addr = a ∧ (f p).size = len := by
  obtain ⟨-, b, hb, hfree, haddr, hlen⟩ := h.isGap_iff.mp hgap
  obtain ⟨p, hp, rfl⟩ := List.mem_map.mp hb
  exact ⟨p, hp, fits_iff.mpr ⟨hfree, hlen ▸ hsize⟩, haddr, hlen⟩

theorem TilingOk.isGap_of_fits (h : TilingOk start total (ps.map f)) (hp : p ∈ ps)
    (hpos : 0 < size) (hfits : fits size (f p) = true) :
    h.heap.IsGap (f p).addr (f p).size ∧ size ≤ (f p).size := by
  obtain ⟨hfree, hsize⟩ := fits_iff.mp hfits
  exact ⟨h.isGap_of_free (List.mem_map_of_mem hp) hfree (lt_of_lt_of_le hpos hsize), hsize⟩

/-- **First fit.** -/
theorem TilingOk.firstFit_find (h : TilingOk start total (ps.map f)) (hpos : 0 < size)
    (hfind : ps.find? (fun p => fits size (f p)) = some p) :
    h.heap.FirstFit size (f p).addr (f p).size := by
  obtain ⟨hfits, xs, ys, rfl, hxs⟩ := List.find?_eq_some_iff_append.mp hfind
  obtain ⟨hgap, hsize⟩ := h.isGap_of_fits (by simp) hpos hfits
  refine ⟨hgap, hsize, ?_⟩
  intro a len hgap' hsize'
  obtain ⟨q, hq, hqfits, rfl, rfl⟩ := h.exists_fits hgap' hsize'
  have horder := (List.pairwise_append.mp h.pairwise_addr).2.1
  rcases List.mem_append.mp hq with hq | hq
  · have := hxs q hq
    simp [hqfits] at this
  rcases List.mem_cons.mp hq with rfl | hq
  · exact le_refl _
  · exact (List.pairwise_cons.mp horder).1 q hq

theorem addr_le_of_idxOf_le [DecidableEq P] (hord : ps.Pairwise fun p q => (f p).addr ≤ (f q).addr)
    {q : P} (hp : p ∈ ps) (hq : q ∈ ps) (hidx : ps.idxOf p ≤ ps.idxOf q) :
    (f p).addr ≤ (f q).addr := by
  have hp' := List.idxOf_lt_length_of_mem hp
  have hq' := List.idxOf_lt_length_of_mem hq
  rcases Nat.lt_or_eq_of_le hidx with hlt | heq
  · have := List.pairwise_iff_getElem.mp hord _ _ hp' hq' hlt
    simpa using this
  · rw [(List.idxOf_inj hp).mp heq]

/-- **Best fit.** -/
theorem TilingOk.bestFit_argmin (h : TilingOk start total (ps.map f)) (hpos : 0 < size)
    (hmin : (ps.filter fun p => fits size (f p)).argmin (fun p => (f p).size) = some p) :
    h.heap.BestFit size (f p).addr (f p).size := by
  classical
  obtain ⟨hmem, hleast, hfirst⟩ := List.argmin_eq_some_iff.mp hmin
  obtain ⟨hp, hfits⟩ := List.mem_filter.mp hmem
  obtain ⟨hgap, hsize⟩ := h.isGap_of_fits hp hpos hfits
  refine ⟨hgap, hsize, ?_⟩
  intro a len hgap' hsize'
  obtain ⟨q, hq, hqfits, rfl, rfl⟩ := h.exists_fits hgap' hsize'
  have hqmem : q ∈ ps.filter fun p => fits size (f p) := List.mem_filter.mpr ⟨hq, hqfits⟩
  rcases Nat.lt_or_eq_of_le (hleast q hqmem) with hlt | heq
  · exact .inl hlt
  · refine .inr ⟨heq, addr_le_of_idxOf_le (h.pairwise_addr.filter _) hmem hqmem ?_⟩
    exact hfirst q hqmem (le_of_eq heq.symm)

end Search

end OsSimulator.Library
