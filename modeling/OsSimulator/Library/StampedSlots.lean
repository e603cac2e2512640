import Mathlib.Data.Int.Notation
import Mathlib.Data.List.Nodup
import Mathlib.Data.List.ReduceOption

/-!
# Slots with time stamps

A fixed number of slots, each empty or holding a key and a value with the time at which it
was stamped.  `ByStamp` lists the items in the slots from the newest to the oldest; no key is
in two slots and no two stamps are equal.

Three things happen to such slots: an item is replaced by a newer one with the same key
(`ByStamp.renew`), an empty slot is filled (`ByStamp.fill`), and the oldest item makes room
for a new one (`ByStamp.evict`), which a scan of the slots finds (`scanLeast_spec`).
-/

set_option autoImplicit false

namespace OsSimulator.Library

structure Stamped (κ β : Type*) where
  key : κ
  value : β
  stamp : ℤ

variable {κ β : Type*}

/-- `order` lists the items, newest first. -/
structure ByStamp (slots : List (Option (Stamped κ β))) (tick : ℤ) (order : List (Stamped κ β)) :
    Prop where
  perm : order.Perm slots.reduceOption
  keys : (order.map Stamped.key).Nodup
  newer : order.Pairwise fun a b => b.stamp < a.stamp
  past : ∀ x ∈ order, x.stamp ≤ tick

namespace ByStamp

variable {slots pre post : List (Option (Stamped κ β))} {tick : ℤ} {order : List (Stamped κ β)}
  {x x' : Stamped κ β}

theorem mem_iff (h : ByStamp slots tick order) : x ∈ order ↔ some x ∈ slots := by
  rw [h.perm.mem_iff, List.reduceOption_mem_iff]

theorem length_le (h : ByStamp slots tick order) : order.length ≤ slots.length := by
  rw [h.perm.length_eq]
  exact List.reduceOption_length_le slots

/-- There are as many items as slots when no slot is empty. -/
theorem length_eq (h : ByStamp slots tick order) (hfull : none ∉ slots) :
    order.length = slots.length := by
  rw [h.perm.length_eq, List.reduceOption_length_eq_iff]
  intro x hx
  rw [Option.isSome_iff_ne_none]
  rintro rfl
  exact hfull hx

/-- There are fewer items than slots when some slot is empty. -/
theorem length_lt (h : ByStamp slots tick order) (hempty : none ∈ slots) :
    order.length < slots.length := by
  rw [h.perm.length_eq, List.reduceOption_length_lt_iff]
  exact hempty

theorem of_empty (tick : ℤ) (hslots : ∀ x ∈ slots, x = none) : ByStamp slots tick [] := by
  refine ⟨?_, by simp, by simp, by simp⟩
  rw [List.nil_perm, List.eq_nil_iff_forall_not_mem]
  intro x hx
  cases hslots _ (List.reduceOption_mem_iff.mp hx)

/-- Time passes. -/
theorem later (h : ByStamp slots tick order) : ByStamp slots (tick + 1) order :=
  { h with past := fun x hx => Int.le_trans (h.past x hx) (by omega) }

theorem reduceOption_split (pre post : List (Option (Stamped κ β))) (x : Stamped κ β) :
    (pre ++ some x :: post).reduceOption.Perm (x :: (pre ++ post).reduceOption) := by
  rw [List.reduceOption_append, List.reduceOption_cons_of_some, List.reduceOption_append]
  exact List.perm_middle

/-- An item that is newer than all others goes to the front. -/
theorem cons {slots' : List (Option (Stamped κ β))} {rest : List (Stamped κ β)}
    (h : ByStamp slots tick order) (hsub : rest.Sublist order)
    (hperm : (x' :: rest).Perm slots'.reduceOption) (hkey : ∀ y ∈ rest, y.key ≠ x'.key)
    (hx' : x'.stamp = tick + 1) : ByStamp slots' (tick + 1) (x' :: rest) := by
  have hpast : ∀ y ∈ rest, y.stamp ≤ tick := fun y hy => h.past y (hsub.subset hy)
  refine ⟨hperm, ?_, ?_, ?_⟩
  · rw [List.map_cons, List.nodup_cons]
    refine ⟨?_, h.keys.sublist (hsub.map Stamped.key)⟩
    intro hmem
    obtain ⟨y, hy, heq⟩ := List.mem_map.mp hmem
    exact hkey y hy heq
  · refine List.pairwise_cons.mpr ⟨fun y hy => ?_, h.newer.sublist hsub⟩
    have := hpast y hy
    omega
  · refine List.forall_mem_cons.mpr ⟨Int.le_of_eq hx', fun y hy => ?_⟩
    have := hpast y hy
    omega

/-- An item is replaced by a newer one with the same key. -/
theorem renew [DecidableEq κ] (h : ByStamp (pre ++ some x :: post) tick order)
    (hkey : x'.key = x.key) (hx' : x'.stamp = tick + 1) :
    ByStamp (pre ++ some x' :: post) (tick + 1) (x' :: order.filter fun y => y.key ≠ x.key) := by
  have hperm := h.perm.trans (reduceOption_split pre post x)
  -- no other item has the key
  have hothers : (pre ++ post).reduceOption.filter (fun y => y.key ≠ x.key) =
      (pre ++ post).reduceOption := by
    have hnodup := (hperm.map Stamped.key).nodup_iff.mp h.keys
    rw [List.map_cons, List.nodup_cons] at hnodup
    apply List.filter_eq_self.mpr
    intro y hy
    simpa using fun heq : y.key = x.key => hnodup.1 (heq ▸ List.mem_map_of_mem hy)
  refine h.cons List.filter_sublist ?_ ?_ hx'
  · refine List.Perm.trans (List.Perm.cons x' ?_) (reduceOption_split pre post x').symm
    have := hperm.filter fun y => y.key ≠ x.key
    rwa [List.filter_cons_of_neg (by simp), hothers] at this
  · intro y hy
    rw [hkey]
    simpa using (List.mem_filter.mp hy).2

/-- An empty slot is filled. -/
theorem fill (h : ByStamp (pre ++ none :: post) tick order) (hkey : ∀ y ∈ order, y.key ≠ x'.key)
    (hx' : x'.stamp = tick + 1) : ByStamp (pre ++ some x' :: post) (tick + 1) (x' :: order) := by
  have hperm : order.Perm (pre ++ post).reduceOption := by
    have := h.perm
    rwa [List.reduceOption_append, List.reduceOption_cons_of_none, ← List.reduceOption_append] at this
  exact h.cons (List.Sublist.refl order)
    ((hperm.cons x').trans (reduceOption_split pre post x').symm) hkey hx'

/-- The item with the least stamp is the last of the order. -/
theorem eq_concat_oldest (h : ByStamp slots tick order) (hx : some x ∈ slots)
    (hmin : ∀ y, some y ∈ slots → x.stamp ≤ y.stamp) : order = order.dropLast ++ [x] := by
  have hmem := h.mem_iff.mpr hx
  obtain ⟨init, last, rfl⟩ :=
    (List.eq_nil_or_concat' order).resolve_left (List.ne_nil_of_mem hmem)
  rw [List.dropLast_concat]
  rcases List.mem_append.mp hmem with hinit | hlast
  · -- an item before the last one is newer than it
    have hlt := (List.pairwise_append.mp h.newer).2.2 x hinit last (by simp)
    have hle := hmin last (h.mem_iff.mp (by simp))
    omega
  · rw [List.mem_singleton.mp hlast]

/-- The oldest item makes room for a new one. -/
theorem evict (h : ByStamp (pre ++ some x :: post) tick order)
    (hmin : ∀ y, some y ∈ pre ++ some x :: post → x.stamp ≤ y.stamp)
    (hkey : ∀ y ∈ order, y.key ≠ x'.key) (hx' : x'.stamp = tick + 1) :
    ByStamp (pre ++ some x' :: post) (tick + 1) (x' :: order.dropLast) := by
  have hlast := h.eq_concat_oldest (by simp) hmin
  have hinit : order.dropLast.Perm (pre ++ post).reduceOption := by
    have hperm := h.perm.trans (reduceOption_split pre post x)
    rw [hlast] at hperm
    exact ((List.perm_append_singleton x order.dropLast).symm.trans hperm).cons_inv
  refine h.cons (List.dropLast_sublist order) ?_ ?_ hx'
  · exact (hinit.cons x').trans (reduceOption_split pre post x').symm
  · exact fun y hy => hkey y ((List.dropLast_sublist order).subset hy)

end ByStamp

/-! ## The scan for the least stamp -/

section Scan

variable {α : Type*}

/-- The usual scan: the index of the least stamp so far, and that stamp, are carried along. -/
def scanLeast (stamp : α → ℤ) : List α → ℕ → ℕ → ℤ → ℕ
  | [], _, idx, _ => idx
  | x :: xs, i, idx, least =>
    if stamp x < least then scanLeast stamp xs (i + 1) i (stamp x)
    else scanLeast stamp xs (i + 1) idx least

/-- The scan keeps its first index when nothing is older, and otherwise stops at a least stamp. -/
theorem scanLeast_spec (stamp : α → ℤ) (xs : List α) (i idx : ℕ) (least : ℤ) :
    (scanLeast stamp xs i idx least = idx ∧ ∀ x ∈ xs, least ≤ stamp x) ∨
      ∃ pre x post, xs = pre ++ x :: post ∧ scanLeast stamp xs i idx least = i + pre.length ∧
        stamp x < least ∧ ∀ y ∈ xs, stamp x ≤ stamp y := by
  induction xs generalizing i idx least with
  | nil => exact .inl ⟨rfl, by simp⟩
  | cons x xs ih =>
    have hshift : ∀ n : ℕ, i + 1 + n = i + (n + 1) := by omega
    unfold scanLeast
    split
    · rename_i hlt
      rcases ih (i + 1) i (stamp x) with ⟨hscan, hle⟩ | ⟨pre, y, post, rfl, hscan, hy, hle⟩
      · exact .inr ⟨[], x, xs, rfl, hscan, hlt, List.forall_mem_cons.mpr ⟨Int.le_refl _, hle⟩⟩
      · exact .inr ⟨x :: pre, y, post, rfl, by rw [hscan, hshift]; rfl, Int.lt_trans hy hlt,
          List.forall_mem_cons.mpr ⟨Int.le_of_lt hy, hle⟩⟩
    · rename_i hge
      rw [Int.not_lt] at hge
      rcases ih (i + 1) idx least with ⟨hscan, hle⟩ | ⟨pre, y, post, rfl, hscan, hy, hle⟩
      · exact .inl ⟨hscan, List.forall_mem_cons.mpr ⟨hge, hle⟩⟩
      · exact .inr ⟨x :: pre, y, post, rfl, by rw [hscan, hshift]; rfl, hy,
          List.forall_mem_cons.mpr ⟨Int.le_of_lt (Int.lt_of_lt_of_le hy hge), hle⟩⟩

end Scan

end OsSimulator.Library
