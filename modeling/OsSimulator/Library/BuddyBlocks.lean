import OsSimulator.Library.TaggedTiling

/-!
# Buddy blocks

A range is cut into blocks whose lengths are powers of two, in the order of their offsets.  A
request for order `k` is served by the first free block of order at least `k`: `carve` halves it
until its first part has order `k`, and uses that part.

* `reserve_eq_none_iff`, `reserve_eq_some`: when a request is served, and by which block;
* `BuddyOk.reserve`: the blocks stay a tiling of the range, each at a multiple of its length;
* `mem_reserve_used`, `BuddyOk.reserve_disjoint`: the used blocks after a request are those before
  it and the new one, which meets none of them.
-/

set_option autoImplicit false

namespace OsSimulator.Library

structure BuddyBlock where
  offset : ℕ
  order : ℕ
  used : Bool
deriving DecidableEq, Repr

namespace BuddyBlock

def length (b : BuddyBlock) : ℕ := 2 ^ b.order

def tile (b : BuddyBlock) : Tile := ⟨b.offset, b.length, b.used⟩

/-- The block can serve a request for order `k`. -/
def serves (k : ℕ) (b : BuddyBlock) : Bool := !b.used && decide (k ≤ b.order)

theorem serves_iff {k : ℕ} {b : BuddyBlock} :
    b.serves k = true ↔ b.used = false ∧ k ≤ b.order := by
  simp [serves]

def Disjoint (b c : BuddyBlock) : Prop :=
  b.offset + b.length ≤ c.offset ∨ c.offset + c.length ≤ b.offset

end BuddyBlock

/-- What is left of a block of order `k + d` when it is halved `d` times, always at its first
half, and the first part is used. -/
def carve (offset k : ℕ) : ℕ → List BuddyBlock
  | 0 => [⟨offset, k, true⟩]
  | d + 1 => carve offset k d ++ [⟨offset + 2 ^ (k + d), k + d, false⟩]

/-- Serve a request for order `k`: the block that was cut, and the blocks afterwards. -/
def reserve (k : ℕ) : List BuddyBlock → Option (BuddyBlock × List BuddyBlock)
  | [] => none
  | b :: bs =>
    if b.serves k then some (b, carve b.offset k (b.order - k) ++ bs)
    else (reserve k bs).map fun r => (r.1, b :: r.2)

/-! ## Which block serves a request -/

section Reserve

variable {k : ℕ} {b : BuddyBlock} {bs bs' xs ys : List BuddyBlock}

theorem reserve_eq_none_iff : reserve k bs = none ↔ ∀ b ∈ bs, b.serves k = false := by
  induction bs with
  | nil => simp [reserve]
  | cons b bs ih =>
    rw [List.forall_mem_cons, ← ih]
    cases hb : b.serves k with
    | true => simp [reserve, hb]
    | false => simp [reserve, hb]

/-- The first block that can serve the request is cut. -/
theorem reserve_eq_some (h : reserve k bs = some (b, bs')) :
    ∃ xs ys, bs = xs ++ b :: ys ∧ (∀ x ∈ xs, x.serves k = false) ∧ b.serves k = true ∧
      bs' = xs ++ (carve b.offset k (b.order - k) ++ ys) := by
  induction bs generalizing bs' with
  | nil => cases h
  | cons c bs ih =>
    rw [reserve] at h
    split at h
    next hc =>
      cases h
      exact ⟨[], bs, rfl, by simp, hc, rfl⟩
    next hc =>
      rw [Option.map_eq_some_iff] at h
      obtain ⟨⟨d, rest⟩, hrest, heq⟩ := h
      simp only [Prod.mk.injEq] at heq
      obtain ⟨rfl, rfl⟩ := heq
      obtain ⟨xs, ys, rfl, hxs, hb, rfl⟩ := ih hrest
      refine ⟨c :: xs, ys, rfl, ?_, hb, rfl⟩
      exact List.forall_mem_cons.mpr ⟨by simpa using hc, hxs⟩

/-- The second part of the list is looked at only when no block of the first serves. -/
theorem reserve_append_of_none (h : reserve k xs = none) :
    reserve k (xs ++ ys) = (reserve k ys).map fun r => (r.1, xs ++ r.2) := by
  induction xs with
  | nil => simp
  | cons x xs ih =>
    have hall := reserve_eq_none_iff.mp h
    rw [List.forall_mem_cons] at hall
    rw [List.cons_append, reserve, hall.1, if_neg (by simp), ih (reserve_eq_none_iff.mpr hall.2),
      Option.map_map]
    rfl

theorem reserve_append_of_some (h : reserve k xs = some (b, bs')) (ys : List BuddyBlock) :
    reserve k (xs ++ ys) = some (b, bs' ++ ys) := by
  induction xs generalizing bs' with
  | nil => cases h
  | cons x xs ih =>
    rw [reserve] at h
    rw [List.cons_append, reserve]
    split at h
    next hx =>
      cases h
      rw [if_pos hx, List.append_assoc]
    next hx =>
      rw [Option.map_eq_some_iff] at h
      obtain ⟨⟨c, rest⟩, hrest, heq⟩ := h
      cases heq
      rw [if_neg hx, ih hrest]
      rfl

end Reserve

/-! ## Cutting a block -/

section Carve

variable {offset k d e : ℕ} {ys : List BuddyBlock}

theorem carve_eq_cons (offset k d : ℕ) :
    ∃ rest, carve offset k d = ⟨offset, k, true⟩ :: rest ∧ ∀ c ∈ rest, c.used = false := by
  induction d with
  | zero => exact ⟨[], rfl, by simp⟩
  | succ d ih =>
    obtain ⟨rest, hrest, hfree⟩ := ih
    refine ⟨rest ++ [⟨offset + 2 ^ (k + d), k + d, false⟩], ?_, ?_⟩
    · rw [carve, hrest, List.cons_append]
    · rw [List.forall_mem_append, List.forall_mem_singleton]
      exact ⟨hfree, rfl⟩

theorem carve_tiles :
    Tiles offset ((carve offset k d ++ ys).map BuddyBlock.tile) e ↔
      Tiles (offset + 2 ^ (k + d)) (ys.map BuddyBlock.tile) e := by
  induction d generalizing ys with
  | zero => simp [carve, Tiles, BuddyBlock.tile, BuddyBlock.length]
  | succ d ih =>
    rw [carve, List.append_assoc, ih]
    have hdouble : offset + 2 ^ (k + d) + 2 ^ (k + d) = offset + 2 ^ (k + (d + 1)) := by
      rw [← Nat.add_assoc k d 1, Nat.pow_succ]
      omega
    simp [Tiles, BuddyBlock.tile, BuddyBlock.length, hdouble]

theorem carve_aligned (h : 2 ^ (k + d) ∣ offset) :
    ∀ b ∈ carve offset k d, b.length ∣ b.offset := by
  induction d with
  | zero => simpa [carve, BuddyBlock.length] using h
  | succ d ih =>
    have hhalf : 2 ^ (k + d) ∣ offset := Dvd.dvd.trans (Nat.pow_dvd_pow 2 (by omega)) h
    rw [carve, List.forall_mem_append, List.forall_mem_singleton]
    exact ⟨ih hhalf, Nat.dvd_add hhalf (Nat.dvd_refl _)⟩

end Carve

/-! ## Well-formed lists of blocks -/

/-- The blocks tile the range, each at a multiple of its length. -/
structure BuddyOk (total : ℕ) (bs : List BuddyBlock) : Prop where
  tiles : Tiles 0 (bs.map BuddyBlock.tile) total
  aligned : ∀ b ∈ bs, b.length ∣ b.offset

theorem BuddyOk.single (n : ℕ) : BuddyOk (2 ^ n) [⟨0, n, false⟩] := by
  refine ⟨⟨rfl, ?_⟩, ?_⟩
  · simp [Tiles, BuddyBlock.tile, BuddyBlock.length]
  · simp

section Ok

variable {k total : ℕ} {b c : BuddyBlock} {bs bs' : List BuddyBlock}

theorem BuddyOk.bounds (h : BuddyOk total bs) (hb : b ∈ bs) : b.offset + b.length ≤ total :=
  (h.tiles.mem_bounds (List.mem_map_of_mem hb)).2

theorem BuddyOk.disjoint (h : BuddyOk total bs) (hb : b ∈ bs) (hc : c ∈ bs) (hne : b ≠ c) :
    b.Disjoint c := by
  obtain ⟨xs, ys, rfl⟩ := List.append_of_mem hb
  have htiles := h.tiles
  rw [List.map_append, List.map_cons] at htiles
  obtain ⟨hxs, hys⟩ := tiles_middle.mp htiles
  have hc' : c ∈ xs ∨ c ∈ ys := by
    rcases List.mem_append.mp hc with hc | hc
    · exact .inl hc
    · exact .inr ((List.mem_cons.mp hc).resolve_left (Ne.symm hne))
  rcases hc' with hc | hc
  · exact .inr (hxs.mem_bounds (List.mem_map_of_mem hc)).2
  · exact .inl (hys.mem_bounds (List.mem_map_of_mem hc)).1

theorem BuddyOk.reserve (h : BuddyOk total bs) (hr : reserve k bs = some (b, bs')) :
    BuddyOk total bs' := by
  obtain ⟨xs, ys, rfl, -, hb, rfl⟩ := reserve_eq_some hr
  have horder : k + (b.order - k) = b.order := Nat.add_sub_cancel' (BuddyBlock.serves_iff.mp hb).2
  have htiles := h.tiles
  rw [List.map_append, List.map_cons] at htiles
  obtain ⟨hxs, hys⟩ := tiles_middle.mp htiles
  have haligned := h.aligned
  rw [List.forall_mem_append, List.forall_mem_cons] at haligned
  refine ⟨?_, ?_⟩
  · rw [List.map_append]
    refine tiles_append.mpr ⟨b.offset, hxs, carve_tiles.mpr ?_⟩
    rw [horder]
    exact hys
  · rw [List.forall_mem_append, List.forall_mem_append]
    refine ⟨haligned.1, carve_aligned ?_, haligned.2.2⟩
    rw [horder]
    exact haligned.2.1

/-- **The used blocks** after a request: those before it, and the new one. -/
theorem mem_reserve_used (hr : reserve k bs = some (b, bs')) (c : BuddyBlock) :
    c ∈ bs' ∧ c.used = true ↔ c = ⟨b.offset, k, true⟩ ∨ c ∈ bs ∧ c.used = true := by
  obtain ⟨xs, ys, rfl, -, hb, rfl⟩ := reserve_eq_some hr
  obtain ⟨rest, hcarve, hrest⟩ := carve_eq_cons b.offset k (b.order - k)
  have hfree : b.used = false := (BuddyBlock.serves_iff.mp hb).1
  have hcut : c ∈ rest → c.used ≠ true := fun hc => by simp [hrest c hc]
  have hwas : c = b → c.used ≠ true := fun hc => by simp [hc, hfree]
  have hnew : c = ⟨b.offset, k, true⟩ → c.used = true := fun hc => by rw [hc]
  simp only [hcarve, List.cons_append, List.mem_append, List.mem_cons]
  tauto

/-- The new block meets no block that was in use. -/
theorem BuddyOk.reserve_disjoint (h : BuddyOk total bs)
    (hr : Library.reserve k bs = some (b, bs')) (hc : c ∈ bs) (hused : c.used = true) :
    c.Disjoint ⟨b.offset, k, true⟩ := by
  obtain ⟨xs, ys, rfl, -, hb, -⟩ := reserve_eq_some hr
  obtain ⟨hfree, horder⟩ := BuddyBlock.serves_iff.mp hb
  have hne : c ≠ b := by
    rintro rfl
    rw [hfree] at hused
    cases hused
  have hle : 2 ^ k ≤ b.length := Nat.pow_le_pow_right (by decide) horder
  refine (h.disjoint hc (by simp) hne).imp_right fun hafter => ?_
  exact le_trans (Nat.add_le_add_left hle _) hafter

end Ok

end OsSimulator.Library
