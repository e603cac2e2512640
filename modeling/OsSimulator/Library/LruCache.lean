import Mathlib.Data.List.Dedup
import Mathlib.Logic.Function.Basic

/-!
# Caches that evict the least recently used key

A cache of bounded size is the list of its keys and values, newest first.  An insert or a
hit moves its key to the front (`touch`), and an insert drops what exceeds the size.

`Tracked` runs a cache beside its own history: the keys touched since the last flush and the
latest value inserted for each key.  `Law` ties the two together: the keys in the cache are
the first distinct keys of the history, as many as fit, and their values are the latest.
Every operation keeps it (`Law.step`).
-/

set_option autoImplicit false

namespace OsSimulator.Library

/-! ## Distinct keys, newest first -/

section Recent

variable {κ : Type*} [DecidableEq κ]

/-- The first `size` distinct keys. -/
def recent (size : ℕ) (touched : List κ) : List κ := touched.eraseDups.take size

theorem not_beq_eq (k : κ) : (fun y => !y == k) = fun y => decide (y ≠ k) := by
  funext y
  rw [decide_not, beq_eq_decide]

theorem eraseDups_filter_ne (k : κ) (l : List κ) :
    (l.filter (· ≠ k)).eraseDups = l.eraseDups.filter (· ≠ k) := by
  induction hn : l.length using Nat.strongRecOn generalizing l with
  | ind n ih =>
    cases l with
    | nil => rfl
    | cons x l =>
      have hlt : (l.filter fun y => !y == x).length < n := by
        have := List.length_filter_le (fun y => !y == x) l
        simp only [List.length_cons] at hn
        omega
      have hswap : (l.filter (· ≠ k)).filter (fun y => !y == x) =
          (l.filter fun y => !y == x).filter (· ≠ k) := by
        rw [List.filter_filter, List.filter_filter]
        exact List.filter_congr fun y _ => Bool.and_comm ..
      by_cases hx : x = k
      · -- the key itself is dropped twice
        have hsame : (l.filter fun y => !y == x) = l.filter (· ≠ k) := by
          rw [hx, not_beq_eq]
        rw [List.eraseDups_cons, List.filter_cons_of_neg (by simp [hx]),
          List.filter_cons_of_neg (by simp [hx]), ← ih _ hlt _ rfl, hsame, List.filter_filter]
        simp
      · rw [List.eraseDups_cons, List.filter_cons_of_pos (by simp [hx]),
          List.filter_cons_of_pos (by simp [hx]), List.eraseDups_cons, hswap, ih _ hlt _ rfl]

theorem eraseDups_cons_ne (k : κ) (l : List κ) :
    (k :: l).eraseDups = k :: l.eraseDups.filter (· ≠ k) := by
  rw [List.eraseDups_cons, not_beq_eq, eraseDups_filter_ne]

theorem nodup_eraseDups (l : List κ) : l.eraseDups.Nodup := by
  induction l with
  | nil => exact List.nodup_nil
  | cons x l ih =>
    rw [eraseDups_cons_ne]
    exact List.nodup_cons.mpr ⟨by simp, ih.filter _⟩

theorem nodup_recent (size : ℕ) (touched : List κ) : (recent size touched).Nodup :=
  (nodup_eraseDups touched).sublist (List.take_sublist ..)

/-- **A larger cache holds what a smaller one does.** -/
theorem recent_subset {size size' : ℕ} (hle : size ≤ size') (touched : List κ) :
    recent size touched ⊆ recent size' touched := by
  intro k hk
  unfold recent at hk ⊢
  rw [← Nat.min_eq_left hle, ← List.take_take] at hk
  exact List.mem_of_mem_take hk

/-- Removing one key commutes with keeping the first ones, up to one place. -/
theorem take_filter_ne (k : κ) {l : List κ} (hl : l.Nodup) (size : ℕ) :
    ((l.take (size + 1)).filter (· ≠ k)).take size = (l.filter (· ≠ k)).take size := by
  induction l generalizing size with
  | nil => rfl
  | cons x l ih =>
    obtain ⟨hx, hl⟩ := List.nodup_cons.mp hl
    rw [List.take_succ_cons]
    by_cases hxk : x = k
    · -- the key is the head, and occurs nowhere else
      have hkeep : l.filter (· ≠ k) = l := by
        apply List.filter_eq_self.mpr
        intro y hy
        simpa using fun heq : y = k => hx (hxk ▸ heq ▸ hy)
      have hkeep' : (l.take size).filter (· ≠ k) = l.take size := by
        apply List.filter_eq_self.mpr
        intro y hy
        simpa using fun heq : y = k => hx (hxk ▸ heq ▸ List.mem_of_mem_take hy)
      rw [List.filter_cons_of_neg (by simp [hxk]), List.filter_cons_of_neg (by simp [hxk]), hkeep,
        hkeep', List.take_take, Nat.min_self]
    · rw [List.filter_cons_of_pos (by simp [hxk]), List.filter_cons_of_pos (by simp [hxk])]
      cases size with
      | zero => rfl
      | succ size => rw [List.take_succ_cons, List.take_succ_cons, ih hl]

/-- A new touch puts its key first. -/
theorem recent_cons (size : ℕ) (k : κ) (touched : List κ) :
    recent size (k :: touched) = (k :: (recent size touched).filter (· ≠ k)).take size := by
  unfold recent
  rw [eraseDups_cons_ne]
  cases size with
  | zero => rfl
  | succ size =>
    rw [List.take_succ_cons, List.take_succ_cons, take_filter_ne k (nodup_eraseDups touched)]

/-- A touch of a recent key only changes the order. -/
theorem recent_cons_of_mem {size : ℕ} {k : κ} {touched : List κ} (hk : k ∈ recent size touched) :
    recent size (k :: touched) = k :: (recent size touched).filter (· ≠ k) := by
  rw [recent_cons, List.take_of_length_le]
  have hlt : ((recent size touched).filter (· ≠ k)).length < (recent size touched).length :=
    List.length_filter_lt_length_iff_exists.mpr ⟨k, hk, by simp⟩
  have hle : (recent size touched).length ≤ size := List.length_take_le ..
  simp only [List.length_cons]
  omega

end Recent

/-! ## The cache -/

namespace Lru

variable {κ β : Type*} [DecidableEq κ]

/-- The key goes to the front, with the given value. -/
def touch (k : κ) (v : β) (cache : List (κ × β)) : List (κ × β) :=
  (k, v) :: cache.filter (fun e => e.1 ≠ k)

def find (k : κ) (cache : List (κ × β)) : Option β :=
  (cache.find? fun e => e.1 = k).map Prod.snd

def insert (size : ℕ) (k : κ) (v : β) (cache : List (κ × β)) : List (κ × β) :=
  (touch k v cache).take size

/-- A hit touches its key, a miss changes nothing. -/
def lookup (k : κ) (cache : List (κ × β)) : Option β × List (κ × β) :=
  match find k cache with
  | some v => (some v, touch k v cache)
  | none => (none, cache)

section Basic

variable {k : κ} {v : β} {cache : List (κ × β)}

theorem keys_touch :
    (touch k v cache).map Prod.fst = k :: (cache.map Prod.fst).filter (· ≠ k) := by
  rw [touch, List.map_cons, List.filter_map]
  rfl

theorem mem_of_find (h : find k cache = some v) : (k, v) ∈ cache := by
  obtain ⟨e, he, rfl⟩ := Option.map_eq_some_iff.mp h
  have hk := List.find?_some he
  simp only [decide_eq_true_eq] at hk
  rw [← hk]
  exact List.mem_of_find?_eq_some he

theorem find_eq_some_of_mem (hnodup : (cache.map Prod.fst).Nodup) (h : (k, v) ∈ cache) :
    find k cache = some v := by
  induction cache with
  | nil => cases h
  | cons e cache ih =>
    obtain ⟨hnot, hnodup⟩ := List.nodup_cons.mp hnodup
    unfold find
    rcases List.mem_cons.mp h with rfl | h
    · rw [List.find?_cons_of_pos (by simp)]
      rfl
    · have hne : e.1 ≠ k := fun heq => hnot (heq ▸ List.mem_map_of_mem (f := Prod.fst) h)
      rw [List.find?_cons_of_neg (by simpa using hne)]
      exact ih hnodup h

theorem find_isSome_iff : (find k cache).isSome ↔ k ∈ cache.map Prod.fst := by
  unfold find
  rw [Option.isSome_map, List.find?_isSome]
  simp

end Basic

/-! ## The cache and its history -/

inductive Op (κ β : Type*) where
  | insert (k : κ) (v : β)
  | lookup (k : κ)
  | flush

/-- A cache, the keys touched since the last flush (newest first), and the value that was
inserted last for each key. -/
structure Tracked (κ β : Type*) where
  cache : List (κ × β)
  touched : List κ
  latest : κ → Option β

namespace Tracked

def empty : Tracked κ β := ⟨[], [], fun _ => none⟩

/-- A touch is an insert or a lookup that hits. -/
def step (size : ℕ) (t : Tracked κ β) : Op κ β → Tracked κ β
  | .insert k v =>
    ⟨insert size k v t.cache, k :: t.touched, Function.update t.latest k (some v)⟩
  | .lookup k =>
    ⟨(lookup k t.cache).2, if (lookup k t.cache).1.isSome then k :: t.touched else t.touched,
      t.latest⟩
  | .flush => ⟨[], [], t.latest⟩

end Tracked

/-- The cache is what its history says. -/
structure Law (size : ℕ) (t : Tracked κ β) : Prop where
  keys : t.cache.map Prod.fst = recent size t.touched
  latest : ∀ e ∈ t.cache, t.latest e.1 = some e.2

variable {size : ℕ} {t : Tracked κ β}

theorem law_empty (size : ℕ) : Law size (Tracked.empty : Tracked κ β) where
  keys := by simp [Tracked.empty, recent]
  latest := by simp [Tracked.empty]

theorem Law.insert (h : Law size t) (k : κ) (v : β) : Law size (t.step size (.insert k v)) := by
  constructor
  · show ((touch k v t.cache).take size).map Prod.fst = recent size (k :: t.touched)
    rw [List.map_take, keys_touch, h.keys, recent_cons]
  · intro e he
    show Function.update t.latest k (some v) e.1 = some e.2
    rcases List.mem_cons.mp (List.mem_of_mem_take he) with rfl | he
    · exact Function.update_self ..
    · obtain ⟨he, hne⟩ := List.mem_filter.mp he
      rw [Function.update_of_ne (by simpa using hne)]
      exact h.latest e he

theorem Law.lookup (h : Law size t) (k : κ) : Law size (t.step size (.lookup k)) := by
  cases hfind : find k t.cache with
  | none =>
    have hstep : t.step size (.lookup k) = t := by
      simp [Tracked.step, Lru.lookup, hfind]
    rw [hstep]
    exact h
  | some v =>
    have hstep : t.step size (.lookup k) = ⟨touch k v t.cache, k :: t.touched, t.latest⟩ := by
      simp [Tracked.step, Lru.lookup, hfind]
    have hmem : k ∈ recent size t.touched := by
      rw [← h.keys, ← find_isSome_iff, hfind]
      rfl
    rw [hstep]
    constructor
    · rw [keys_touch, h.keys, recent_cons_of_mem hmem]
    · intro e he
      rcases List.mem_cons.mp he with rfl | he
      · exact h.latest _ (mem_of_find hfind)
      · exact h.latest e (List.mem_filter.mp he).1

/-- **The law is kept by every operation.** -/
theorem Law.step (h : Law size t) (op : Op κ β) : Law size (t.step size op) := by
  cases op with
  | insert k v => exact h.insert k v
  | lookup k => exact h.lookup k
  | flush => exact ⟨by simp [Tracked.step, recent], by simp [Tracked.step]⟩

/-- A lookup hits exactly the recent keys, and returns the latest value. -/
theorem Law.find_eq (h : Law size t) (k : κ) :
    find k t.cache = if k ∈ recent size t.touched then t.latest k else none := by
  rw [← h.keys]
  cases hfind : find k t.cache with
  | none =>
    have hnot : ¬ k ∈ t.cache.map Prod.fst := by
      rw [← find_isSome_iff, hfind]
      simp
    rw [if_neg hnot]
  | some v =>
    have hmem := mem_of_find hfind
    rw [if_pos (List.mem_map_of_mem hmem), h.latest _ hmem]

end Lru

end OsSimulator.Library
