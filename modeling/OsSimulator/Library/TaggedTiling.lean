import Mathlib.Data.List.Chain
import Mathlib.Data.Finset.Basic
import Mathlib.Data.Finset.Lattice.Lemmas
import Mathlib.Algebra.BigOperators.Group.List.Basic
import Mathlib.Algebra.GroupWithZero.Nat

/-!
# Tilings of an interval by used and free tiles

A range of addresses is cut into consecutive tiles, each used or free.  The tiling is
coalesced when no two neighbours are both free.

* `place` uses a free tile, and leaves a free rest if it is large enough;
* `release` frees a used tile and merges it with its free neighbours.

Both keep a tiling well formed (`TilingOk.place`, `TilingOk.release`), and change the
intervals of the used tiles by exactly one.
-/

set_option autoImplicit false

namespace OsSimulator.Library

structure Tile where
  addr : ℕ
  size : ℕ
  used : Bool
deriving DecidableEq, Repr

/-- The tiles cover the range from the first to the last address, without holes. -/
def Tiles : ℕ → List Tile → ℕ → Prop
  | a, [], e => a = e
  | a, b :: bs, e => b.addr = a ∧ Tiles (a + b.size) bs e

def Coalesced (bs : List Tile) : Prop := bs.IsChain fun b c => b.used = true ∨ c.used = true

def usedBytes (bs : List Tile) : ℕ := (bs.map fun b => if b.used then b.size else 0).sum

/-- The intervals of the used tiles. -/
def liveIntervals (bs : List Tile) : Finset (ℕ × ℕ) :=
  ((bs.filter Tile.used).map fun b => (b.addr, b.size)).toFinset

/-- The tile meets the address. -/
def Tile.Covers (b : Tile) (x : ℕ) : Prop := b.addr ≤ x ∧ x < b.addr + b.size

/-! ## Positions in a tiling -/

section Positions

variable {a e : ℕ} {bs xs ys : List Tile} {b c : Tile}

theorem tiles_append : Tiles a (xs ++ ys) e ↔ ∃ m, Tiles a xs m ∧ Tiles m ys e := by
  induction xs generalizing a with
  | nil => simp [Tiles]
  | cons x xs ih => simp only [List.cons_append, Tiles, ih, and_assoc, exists_and_left]

theorem tiles_middle :
    Tiles a (xs ++ b :: ys) e ↔ Tiles a xs b.addr ∧ Tiles (b.addr + b.size) ys e := by
  rw [tiles_append]
  constructor
  · rintro ⟨m, hxs, rfl, hys⟩
    exact ⟨hxs, hys⟩
  · rintro ⟨hxs, hys⟩
    exact ⟨b.addr, hxs, rfl, hys⟩

theorem Tiles.le (h : Tiles a bs e) : a ≤ e := by
  induction bs generalizing a with
  | nil => exact le_of_eq h
  | cons b bs ih =>
    have := ih h.2
    omega

theorem Tiles.mem_bounds (h : Tiles a bs e) (hb : b ∈ bs) : a ≤ b.addr ∧ b.addr + b.size ≤ e := by
  obtain ⟨xs, ys, rfl⟩ := List.append_of_mem hb
  obtain ⟨hxs, hys⟩ := tiles_middle.mp h
  exact ⟨hxs.le, hys.le⟩

theorem Tiles.sum_size (h : Tiles a bs e) : a + (bs.map Tile.size).sum = e := by
  induction bs generalizing a with
  | nil => simpa [Tiles] using h
  | cons b bs ih =>
    have := ih h.2
    simp only [List.map_cons, List.sum_cons]
    omega

/-- A tiling can be moved. -/
theorem Tiles.shift (h : Tiles a bs e) (s : ℕ) :
    Tiles (s + a) (bs.map fun t => ⟨s + t.addr, t.size, t.used⟩) (s + e) := by
  induction bs generalizing a with
  | nil => exact congrArg (s + ·) h
  | cons t bs ih =>
    refine ⟨congrArg (s + ·) h.1, ?_⟩
    show Tiles (s + a + t.size) _ _
    rw [Nat.add_assoc]
    exact ih h.2

/-- Every address of the range is met by a tile. -/
theorem Tiles.exists_covers (h : Tiles a bs e) {x : ℕ} (hx : a ≤ x) (hxe : x < e) :
    ∃ b ∈ bs, b.Covers x := by
  induction bs generalizing a with
  | nil =>
    have : a = e := h
    omega
  | cons b bs ih =>
    by_cases hlt : x < a + b.size
    · exact ⟨b, List.mem_cons_self, by rw [h.1]; exact hx, by rw [h.1]; exact hlt⟩
    · obtain ⟨c, hc, hcov⟩ := ih h.2 (by omega)
      exact ⟨c, List.mem_cons_of_mem b hc, hcov⟩

/-- No address is met by two tiles. -/
theorem Tiles.covers_unique (h : Tiles a bs e) {x : ℕ} (hb : b ∈ bs) (hc : c ∈ bs)
    (hbx : b.Covers x) (hcx : c.Covers x) : b = c := by
  obtain ⟨xs, ys, rfl⟩ := List.append_of_mem hb
  obtain ⟨hxs, hys⟩ := tiles_middle.mp h
  rcases List.mem_append.mp hc with hc | hc
  · have := (hxs.mem_bounds hc).2
    unfold Tile.Covers at hbx hcx
    omega
  · rcases List.mem_cons.mp hc with rfl | hc
    · rfl
    · have := (hys.mem_bounds hc).1
      unfold Tile.Covers at hbx hcx
      omega

theorem coalesced_append :
    Coalesced (xs ++ ys) ↔ Coalesced xs ∧ Coalesced ys ∧
      ∀ x ∈ xs.getLast?, ∀ y ∈ ys.head?, x.used = true ∨ y.used = true :=
  List.isChain_append

theorem coalesced_cons :
    Coalesced (b :: ys) ↔ (∀ y ∈ ys.head?, b.used = true ∨ y.used = true) ∧ Coalesced ys :=
  List.isChain_cons

theorem mem_liveIntervals {i : ℕ × ℕ} :
    i ∈ liveIntervals bs ↔ ∃ b ∈ bs, b.used = true ∧ (b.addr, b.size) = i := by
  simp [liveIntervals, and_assoc]

theorem usedBytes_append : usedBytes (xs ++ ys) = usedBytes xs + usedBytes ys := by
  simp [usedBytes]

theorem usedBytes_cons : usedBytes (b :: ys) = (if b.used then b.size else 0) + usedBytes ys := by
  simp [usedBytes]

theorem usedBytes_le_sum (bs : List Tile) : usedBytes bs ≤ (bs.map Tile.size).sum := by
  induction bs with
  | nil => exact le_refl _
  | cons b bs ih =>
    rw [usedBytes_cons, List.map_cons, List.sum_cons]
    split <;> omega

end Positions

/-! ## Well-formed tilings -/

/-- A coalesced tiling of `total` addresses from `start` on; only the tile of an empty range
has no addresses. -/
structure TilingOk (start total : ℕ) (bs : List Tile) : Prop where
  tiles : Tiles start bs (start + total)
  coalesced : Coalesced bs
  pos : ∀ b ∈ bs, b.used = true ∨ 0 < total → 0 < b.size

theorem TilingOk.usedBytes_le {start total : ℕ} {bs : List Tile} (h : TilingOk start total bs) :
    usedBytes bs ≤ total := by
  have hsum := h.tiles.sum_size
  have hle := usedBytes_le_sum bs
  omega

section Place

variable {start total : ℕ} {xs ys : List Tile} {b : Tile} {size slack : ℕ}

/-- Use a free tile for `size` addresses; the rest is cut off if it exceeds `slack`. -/
def place (slack size : ℕ) (b : Tile) : List Tile :=
  if b.size > size + slack then
    [⟨b.addr, size, true⟩, ⟨b.addr + size, b.size - size, false⟩]
  else [⟨b.addr, b.size, true⟩]

/-- The length of the interval that `place` makes live. -/
def placedSize (slack size : ℕ) (b : Tile) : ℕ := if b.size > size + slack then size else b.size

theorem place_eq_cons (slack size : ℕ) (b : Tile) :
    ∃ rest, place slack size b = ⟨b.addr, placedSize slack size b, true⟩ :: rest ∧
      ∀ c ∈ rest, c.used = false := by
  unfold place placedSize
  split
  · exact ⟨_, rfl, by simp⟩
  · exact ⟨_, rfl, by simp⟩

theorem placedSize_bounds (slack : ℕ) (hsize : size ≤ b.size) :
    size ≤ placedSize slack size b ∧ placedSize slack size b ≤ b.size := by
  unfold placedSize
  split <;> omega

theorem place_tiles {e : ℕ} (hsize : size ≤ b.size) :
    Tiles b.addr (place slack size b ++ ys) e ↔ Tiles (b.addr + b.size) ys e := by
  unfold place
  split
  · simp only [List.cons_append, List.nil_append, Tiles, true_and]
    rw [Nat.add_assoc, Nat.add_sub_cancel' hsize]
  · simp only [List.cons_append, List.nil_append, Tiles, true_and]

/-- **Placing keeps the tiling well formed**: the neighbours of a free tile are used. -/
theorem TilingOk.place (h : TilingOk start total (xs ++ b :: ys)) (slack : ℕ)
    (hfree : b.used = false) (hpos : 0 < size) (hsize : size ≤ b.size) :
    TilingOk start total (xs ++ (Library.place slack size b ++ ys)) := by
  obtain ⟨hxs, hys⟩ := tiles_middle.mp h.tiles
  obtain ⟨hcx, hcb, hlast⟩ := coalesced_append.mp h.coalesced
  obtain ⟨hhead, hcy⟩ := coalesced_cons.mp hcb
  simp only [hfree, Bool.false_eq_true, false_or] at hhead
  refine ⟨tiles_append.mpr ⟨b.addr, hxs, (place_tiles hsize).mpr hys⟩, ?_, ?_⟩
  · refine coalesced_append.mpr ⟨hcx, ?_, ?_⟩
    · unfold Library.place
      split
      · refine coalesced_cons.mpr ⟨fun _ _ => .inl rfl, coalesced_cons.mpr ⟨?_, hcy⟩⟩
        intro y hy
        exact .inr (hhead y hy)
      · exact coalesced_cons.mpr ⟨fun _ _ => .inl rfl, hcy⟩
    · intro x _ y hy
      obtain ⟨rest, hplace, -⟩ := place_eq_cons slack size b
      rw [hplace] at hy
      cases hy
      exact .inr rfl
  · intro c hc hcond
    rcases List.mem_append.mp hc with hc | hc
    · exact h.pos c (List.mem_append_left _ hc) hcond
    rcases List.mem_append.mp hc with hc | hc
    · unfold Library.place at hc
      split at hc
      · simp only [List.mem_cons, List.not_mem_nil, or_false] at hc
        rcases hc with rfl | rfl
        · exact hpos
        · show 0 < b.size - size
          omega
      · simp only [List.mem_cons, List.not_mem_nil, or_false] at hc
        rw [hc]
        exact lt_of_lt_of_le hpos hsize
    · exact h.pos c (List.mem_append_right _ (List.mem_cons_of_mem b hc)) hcond

theorem liveIntervals_place (slack size : ℕ) (xs ys : List Tile) (hfree : b.used = false) :
    liveIntervals (xs ++ (Library.place slack size b ++ ys)) =
      insert (b.addr, placedSize slack size b) (liveIntervals (xs ++ b :: ys)) := by
  obtain ⟨rest, hplace, hrest⟩ := place_eq_cons slack size b
  ext i
  rw [hplace, Finset.mem_insert, mem_liveIntervals, mem_liveIntervals]
  simp only [List.mem_append, List.mem_cons, or_and_right, exists_or, exists_eq_left, hfree,
    Bool.false_eq_true, false_and, false_or, true_and, List.cons_append]
  have hnone : ¬ ∃ c, c ∈ rest ∧ c.used = true ∧ (c.addr, c.size) = i := by
    rintro ⟨c, hc, hused, -⟩
    rw [hrest c hc] at hused
    cases hused
  simp only [hnone, false_or]
  constructor
  · rintro (h | h | h)
    · exact .inr (.inl h)
    · exact .inl h.symm
    · exact .inr (.inr h)
  · rintro (h | h | h)
    · exact .inr (.inl h.symm)
    · exact .inl h
    · exact .inr (.inr h)

theorem usedBytes_place (slack size : ℕ) (xs ys : List Tile) (hfree : b.used = false) :
    usedBytes (xs ++ (Library.place slack size b ++ ys)) =
      usedBytes (xs ++ b :: ys) + placedSize slack size b := by
  simp only [usedBytes_append, usedBytes_cons, hfree]
  unfold Library.place placedSize
  split
  · simp [usedBytes]
    omega
  · simp [usedBytes]
    omega

end Place

/-! ## Releasing a tile -/

section Release

variable {start total a e : ℕ} {xs ys zs : List Tile} {b : Tile}

/-- A tile absorbs the tile after it if that one is free. -/
def mergeNext (b : Tile) : List Tile → List Tile
  | [] => [b]
  | n :: ys => if n.used then b :: n :: ys else ⟨b.addr, b.size + n.size, b.used⟩ :: ys

/-- The last tile of `xs`, if it is free, absorbs the first tile of `zs`. -/
def mergeLast (xs zs : List Tile) : List Tile :=
  match xs.getLast? with
  | none => zs
  | some p => if p.used then xs ++ zs else xs.dropLast ++ mergeNext p zs

def freed (b : Tile) : Tile := ⟨b.addr, b.size, false⟩

/-- Free the tile between `xs` and `ys`, and merge it with its free neighbours. -/
def release (xs : List Tile) (b : Tile) (ys : List Tile) : List Tile :=
  mergeLast xs (mergeNext (freed b) ys)

/-- The two shapes of `mergeLast`. -/
theorem mergeLast_cases (xs zs : List Tile) :
    (mergeLast xs zs = xs ++ zs ∧ ∀ x ∈ xs.getLast?, x.used = true) ∨
      ∃ xs' p, xs = xs' ++ [p] ∧ p.used = false ∧ mergeLast xs zs = xs' ++ mergeNext p zs := by
  rcases List.eq_nil_or_concat' xs with rfl | ⟨xs', p, rfl⟩
  · exact .inl ⟨rfl, by simp⟩
  · cases hp : p.used with
    | true =>
      refine .inl ⟨?_, by simp [hp]⟩
      simp [mergeLast, hp]
    | false =>
      refine .inr ⟨xs', p, rfl, hp, ?_⟩
      simp [mergeLast, hp]

theorem Tiles.mergeNext (h : Tiles a (b :: ys) e) : Tiles a (Library.mergeNext b ys) e := by
  fun_cases Library.mergeNext b ys with
  | case1 => exact h
  | case2 n ys => exact h
  | case3 n ys =>
    obtain ⟨hb, hn, hrest⟩ := h
    exact ⟨hb, by rwa [← Nat.add_assoc]⟩

theorem liveIntervals_mergeNext (hb : b.used = false) :
    liveIntervals (mergeNext b ys) = liveIntervals (b :: ys) := by
  fun_cases mergeNext b ys <;> simp_all [liveIntervals]

theorem usedBytes_mergeNext (hb : b.used = false) :
    usedBytes (mergeNext b ys) = usedBytes (b :: ys) := by
  fun_cases mergeNext b ys <;> simp_all [usedBytes]

theorem pos_mergeNext (h : ∀ c ∈ b :: ys, 0 < c.size) : ∀ c ∈ mergeNext b ys, 0 < c.size := by
  fun_cases mergeNext b ys with
  | case1 => exact h
  | case2 n ys => exact h
  | case3 n ys =>
    simp only [List.forall_mem_cons] at h ⊢
    exact ⟨Nat.add_pos_left h.1 _, h.2.2⟩

theorem head_mergeNext (ys : List Tile) (hb : b.used = false) :
    ∀ c ∈ (mergeNext b ys).head?, c.used = false := by
  fun_cases mergeNext b ys <;> simpa using hb

theorem Coalesced.mergeNext (h : Coalesced ys) : Coalesced (Library.mergeNext b ys) := by
  fun_cases Library.mergeNext b ys with
  | case1 => exact List.isChain_singleton _
  | case2 n ys hn => exact coalesced_cons.mpr ⟨by simpa using .inr hn, h⟩
  | case3 n ys hn =>
    obtain ⟨hhead, hys⟩ := coalesced_cons.mp h
    simp only [hn, Bool.false_eq_true, false_or] at hhead
    exact coalesced_cons.mpr ⟨fun y hy => .inr (hhead y hy), hys⟩

theorem Tiles.mergeLast (h : Tiles a (xs ++ zs) e) : Tiles a (Library.mergeLast xs zs) e := by
  rcases mergeLast_cases xs zs with ⟨heq, -⟩ | ⟨xs', p, rfl, -, heq⟩
  · rwa [heq]
  · rw [heq]
    rw [List.append_assoc] at h
    obtain ⟨m, hxs, hzs⟩ := tiles_append.mp h
    exact tiles_append.mpr ⟨m, hxs, hzs.mergeNext⟩

theorem liveIntervals_append : liveIntervals (xs ++ ys) = liveIntervals xs ∪ liveIntervals ys := by
  simp [liveIntervals]

theorem liveIntervals_mergeLast : liveIntervals (mergeLast xs zs) = liveIntervals (xs ++ zs) := by
  rcases mergeLast_cases xs zs with ⟨heq, -⟩ | ⟨xs', p, rfl, hp, heq⟩
  · rw [heq]
  · rw [heq, List.append_assoc, liveIntervals_append, liveIntervals_mergeNext hp,
      ← liveIntervals_append]
    rfl

theorem usedBytes_mergeLast : usedBytes (mergeLast xs zs) = usedBytes (xs ++ zs) := by
  rcases mergeLast_cases xs zs with ⟨heq, -⟩ | ⟨xs', p, rfl, hp, heq⟩
  · rw [heq]
  · rw [heq, List.append_assoc, usedBytes_append, usedBytes_mergeNext hp, ← usedBytes_append]
    rfl

theorem pos_mergeLast (h : ∀ c ∈ xs ++ zs, 0 < c.size) : ∀ c ∈ mergeLast xs zs, 0 < c.size := by
  rcases mergeLast_cases xs zs with ⟨heq, -⟩ | ⟨xs', p, rfl, -, heq⟩
  · rwa [heq]
  · rw [heq]
    rw [List.append_assoc, List.forall_mem_append] at h
    exact List.forall_mem_append.mpr ⟨h.1, pos_mergeNext h.2⟩

theorem Coalesced.mergeLast (hxs : Coalesced xs) (hzs : Coalesced zs) :
    Coalesced (Library.mergeLast xs zs) := by
  rcases mergeLast_cases xs zs with ⟨heq, hlast⟩ | ⟨xs', p, rfl, hp, heq⟩
  · rw [heq]
    exact coalesced_append.mpr ⟨hxs, hzs, fun x hx _ _ => .inl (hlast x hx)⟩
  · -- the last tile is free, so the one before it is used
    obtain ⟨hxs', -, hlast⟩ := coalesced_append.mp hxs
    simp only [List.head?_cons, Option.mem_some_iff, forall_eq', hp, Bool.false_eq_true,
      or_false] at hlast
    rw [heq]
    exact coalesced_append.mpr ⟨hxs', hzs.mergeNext, fun x hx _ _ => .inl (hlast x hx)⟩

/-- **Releasing keeps the tiling well formed**: both free neighbours are absorbed. -/
theorem TilingOk.release (h : TilingOk start total (xs ++ b :: ys)) (hused : b.used = true) :
    TilingOk start total (Library.release xs b ys) := by
  obtain ⟨hxs, hys⟩ := tiles_middle.mp h.tiles
  obtain ⟨hcx, hcb, -⟩ := coalesced_append.mp h.coalesced
  obtain ⟨-, hcy⟩ := coalesced_cons.mp hcb
  have hbpos : 0 < b.size := h.pos b (by simp) (.inl hused)
  have htotal : 0 < total := by
    have := h.tiles.mem_bounds (b := b) (by simp)
    omega
  have hpos : ∀ c ∈ xs ++ b :: ys, 0 < c.size := fun c hc => h.pos c hc (.inr htotal)
  simp only [List.forall_mem_append, List.forall_mem_cons] at hpos
  refine ⟨Tiles.mergeLast ?_, hcx.mergeLast hcy.mergeNext, ?_⟩
  · exact tiles_append.mpr ⟨b.addr, hxs, Tiles.mergeNext ⟨rfl, hys⟩⟩
  · intro c hc _
    refine pos_mergeLast (List.forall_mem_append.mpr ⟨hpos.1, pos_mergeNext ?_⟩) c hc
    exact List.forall_mem_cons.mpr ⟨hpos.2.1, hpos.2.2⟩

/-- A used tile is the only one with its interval. -/
theorem TilingOk.unique_used (h : TilingOk start total (xs ++ b :: ys)) (hused : b.used = true) :
    (b.addr, b.size) ∉ liveIntervals (xs ++ ys) := by
  obtain ⟨hxs, hys⟩ := tiles_middle.mp h.tiles
  have hbpos : 0 < b.size := h.pos b (by simp) (.inl hused)
  rw [mem_liveIntervals]
  rintro ⟨c, hc, -, heq⟩
  simp only [Prod.mk.injEq] at heq
  rcases List.mem_append.mp hc with hc | hc
  · have := hxs.mem_bounds hc
    omega
  · have := hys.mem_bounds hc
    omega

theorem TilingOk.liveIntervals_release (h : TilingOk start total (xs ++ b :: ys))
    (hused : b.used = true) :
    liveIntervals (Library.release xs b ys) =
      (liveIntervals (xs ++ b :: ys)).erase (b.addr, b.size) := by
  have hrest : liveIntervals (Library.release xs b ys) = liveIntervals (xs ++ ys) := by
    unfold Library.release
    rw [liveIntervals_mergeLast, liveIntervals_append, liveIntervals_mergeNext rfl,
      ← liveIntervals_append]
    simp [liveIntervals, freed]
  have hwith : liveIntervals (xs ++ b :: ys) =
      insert (b.addr, b.size) (liveIntervals (xs ++ ys)) := by
    rw [liveIntervals_append, liveIntervals_append, ← Finset.union_insert]
    simp [liveIntervals, hused]
  rw [hrest, hwith, Finset.erase_insert (h.unique_used hused)]

theorem usedBytes_release (xs ys : List Tile) (hused : b.used = true) :
    usedBytes (release xs b ys) + b.size = usedBytes (xs ++ b :: ys) := by
  unfold release
  rw [usedBytes_mergeLast, usedBytes_append, usedBytes_mergeNext rfl, usedBytes_append,
    usedBytes_cons, usedBytes_cons]
  simp only [freed, hused, Bool.false_eq_true, if_false, if_true]
  omega

end Release

end OsSimulator.Library
