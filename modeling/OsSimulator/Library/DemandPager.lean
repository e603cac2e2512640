import Mathlib.Data.List.Nodup
import Mathlib.Data.List.TakeWhile

/-!
# The textbook demand pager

A memory with a fixed number of frames under one of three replacement policies.  The state is
the list of the resident pages, each with its use bit, and the next candidate for eviction
first: under FIFO the earliest loaded, under LRU the least recently accessed, and under CLOCK
the page under the hand, followed by the others in the order in which the hand meets them.

A page faults when it is not resident.  If no frame is free, FIFO and LRU evict the first
candidate; CLOCK evicts the first one without a use bit (`sweep`), and the pages it passes
lose theirs.
-/

set_option autoImplicit false

namespace OsSimulator.Library

inductive Replacement where
  | fifo
  | lru
  | clock
deriving DecidableEq, Repr

/-- What an access comes to. -/
inductive PageAccess (α : Type*) where
  | hit
  | fault (evicted : Option α)
deriving DecidableEq, Repr

namespace DemandPager

variable {α : Type*}

/-- The resident pages. -/
def pages (q : List (α × Bool)) : List α := q.map Prod.fst

def clearBits (q : List (α × Bool)) : List (α × Bool) := q.map fun x => (x.1, false)

/-- One turn of the clock: the first page without a use bit leaves, and those before it lose
theirs.  When all have one, the hand clears them all and comes back to the first page. -/
def sweep (q : List (α × Bool)) : Option (α × List (α × Bool)) :=
  match q.dropWhile Prod.snd with
  | (v, _) :: behind => some (v, behind ++ clearBits (q.takeWhile Prod.snd))
  | [] =>
    match q with
    | (v, _) :: rest => some (v, clearBits rest)
    | [] => none

/-- The victim and what stays. -/
def evict (R : Replacement) (q : List (α × Bool)) : Option (α × List (α × Bool)) :=
  match R with
  | .clock => sweep q
  | _ =>
    match q with
    | (v, _) :: rest => some (v, rest)
    | [] => none

variable [DecidableEq α]

/-- An access to a resident page. -/
def use (R : Replacement) (p : α) (q : List (α × Bool)) : List (α × Bool) :=
  match R with
  | .fifo => q
  | .lru => q.filter (fun x => x.1 ≠ p) ++ [(p, true)]
  | .clock => q.map fun x => if x.1 = p then (p, true) else x

/-- An access, with `size` frames. -/
def access (R : Replacement) (size : ℕ) (p : α) (q : List (α × Bool)) :
    PageAccess α × List (α × Bool) :=
  if p ∈ pages q then (.hit, use R p q)
  else if q.length < size then (.fault none, q ++ [(p, true)])
  else
    match evict R q with
    | some (v, rest) => (.fault (some v), rest ++ [(p, true)])
    | none => (.fault none, q)

/-- The state after the given accesses, from an empty memory. -/
def run (R : Replacement) (size : ℕ) (accesses : List α) : List (α × Bool) :=
  accesses.foldl (fun q p => (access R size p q).2) []

/-! ## The clock, one step at a time -/

section Sweep

variable {α : Type*}

theorem sweep_of_unused (v : α) (rest : List (α × Bool)) :
    sweep ((v, false) :: rest) = some (v, rest) := by
  simp [sweep, clearBits]

/-- A page with a use bit goes to the end without it. -/
theorem sweep_of_used (v : α) (rest : List (α × Bool)) :
    sweep ((v, true) :: rest) = sweep (rest ++ [(v, false)]) := by
  unfold sweep
  rw [List.dropWhile_cons_of_pos rfl, List.takeWhile_cons_of_pos rfl, List.dropWhile_append]
  cases hdrop : rest.dropWhile Prod.snd with
  | nil =>
    have hall : ∀ x ∈ rest, x.2 = true := List.dropWhile_eq_nil_iff.mp hdrop
    simp [clearBits, List.takeWhile_append_of_pos hall]
  | cons w behind =>
    have htake : (rest ++ [(v, false)]).takeWhile Prod.snd = rest.takeWhile Prod.snd := by
      rw [List.takeWhile_append, if_neg]
      intro hlen
      have hsplit := List.takeWhile_append_dropWhile (p := Prod.snd) (l := rest)
      have := congrArg List.length hsplit
      rw [List.length_append, hlen, hdrop, List.length_cons] at this
      omega
    simp [clearBits, htake]

theorem pages_clearBits (q : List (α × Bool)) : pages (clearBits q) = pages q := by
  simp [pages, clearBits]

theorem pages_append (q q' : List (α × Bool)) : pages (q ++ q') = pages q ++ pages q' :=
  List.map_append

theorem pages_sweep {q rest : List (α × Bool)} {v : α} (h : sweep q = some (v, rest)) :
    (pages q).Perm (v :: pages rest) := by
  unfold sweep at h
  split at h
  · rename_i v' b behind hdrop
    obtain ⟨rfl, rfl⟩ := Prod.mk.inj (Option.some.inj h)
    have hsplit : pages q = pages (q.takeWhile Prod.snd) ++ v' :: pages behind := by
      have := List.takeWhile_append_dropWhile (p := Prod.snd) (l := q)
      rw [hdrop] at this
      exact (congrArg pages this).symm.trans (pages_append ..)
    rw [hsplit, pages_append, pages_clearBits]
    exact List.perm_middle.trans (List.perm_append_comm.cons v')
  · split at h
    · obtain ⟨rfl, rfl⟩ := Prod.mk.inj (Option.some.inj h)
      rw [pages_clearBits]
      exact List.Perm.refl _
    · cases h

theorem pages_evict {R : Replacement} {q rest : List (α × Bool)} {v : α}
    (h : evict R q = some (v, rest)) : (pages q).Perm (v :: pages rest) := by
  unfold evict at h
  split at h
  · exact pages_sweep h
  · split at h
    · obtain ⟨rfl, rfl⟩ := Prod.mk.inj (Option.some.inj h)
      exact List.Perm.refl _
    · cases h

theorem exists_evict (R : Replacement) {q : List (α × Bool)} (hq : q ≠ []) :
    ∃ v rest, evict R q = some (v, rest) := by
  obtain ⟨⟨v, b⟩, q, rfl⟩ := List.exists_cons_of_ne_nil hq
  cases R with
  | fifo => exact ⟨v, q, rfl⟩
  | lru => exact ⟨v, q, rfl⟩
  | clock =>
    show ∃ v' rest, sweep ((v, b) :: q) = some (v', rest)
    unfold sweep
    split
    · exact ⟨_, _, rfl⟩
    · exact ⟨_, _, rfl⟩

end Sweep

/-! ## What an access does to the resident pages -/

section Access

variable {R : Replacement} {size : ℕ} {p v : α} {q : List (α × Bool)}

theorem pages_use (hq : (pages q).Nodup) (hp : p ∈ pages q) : (pages (use R p q)).Perm (pages q) := by
  cases R with
  | fifo => exact List.Perm.refl _
  | clock =>
    have hsame : pages (use .clock p q) = pages q := by
      unfold pages use
      rw [List.map_map]
      apply List.map_congr_left
      intro x _
      by_cases hx : x.1 = p <;> simp [hx]
    rw [hsame]
  | lru =>
    have hfilter : pages (use .lru p q) = (pages q).filter (· ≠ p) ++ [p] := by
      unfold pages use
      rw [List.map_append, List.filter_map]
      rfl
    have herase : (pages q).filter (· ≠ p) = (pages q).erase p := by
      rw [hq.erase_eq_filter]
      exact List.filter_congr fun x _ => by rw [bne, beq_eq_decide, decide_not]
    rw [hfilter, herase]
    exact (List.perm_append_singleton p _).trans (List.perm_cons_erase hp).symm

theorem access_of_mem (hp : p ∈ pages q) : access R size p q = (.hit, use R p q) := if_pos hp

theorem access_of_room (hp : p ∉ pages q) (hroom : q.length < size) :
    access R size p q = (.fault none, q ++ [(p, true)]) := by
  rw [access, if_neg hp, if_pos hroom]

theorem access_of_full (hp : p ∉ pages q) (hfull : ¬ q.length < size) {rest : List (α × Bool)}
    (hevict : evict R q = some (v, rest)) :
    access R size p q = (.fault (some v), rest ++ [(p, true)]) := by
  rw [access, if_neg hp, if_neg hfull, hevict]

/-- A page faults exactly when it is not resident. -/
theorem access_eq_hit_iff : (access R size p q).1 = .hit ↔ p ∈ pages q := by
  unfold access
  split
  · simp [*]
  · split
    · simp [*]
    · split <;> simp [*]

/-- **The evicted page is the one that was resident and no longer is.** -/
theorem access_evicts_iff (hq : (pages q).Nodup) (hsize : 0 < size) :
    (access R size p q).1 = .fault (some v) ↔
      v ∈ pages q ∧ v ∉ pages (access R size p q).2 := by
  by_cases hp : p ∈ pages q
  · rw [access_of_mem hp, (pages_use hq hp).mem_iff]
    simp
  · by_cases hroom : q.length < size
    · rw [access_of_room hp hroom, pages_append]
      simp only [List.mem_append, not_or, reduceCtorEq, PageAccess.fault.injEq, false_iff, not_and]
      tauto
    · have hne : q ≠ [] := by
        rintro rfl
        exact hroom hsize
      obtain ⟨w, rest, hevict⟩ := exists_evict R hne
      have hperm := pages_evict hevict
      have hnodup := hperm.nodup_iff.mp hq
      rw [List.nodup_cons] at hnodup
      have hwp : w ≠ p := fun heq => hp (heq ▸ hperm.mem_iff.mpr (by simp))
      rw [access_of_full hp hroom hevict, hperm.mem_iff, pages_append]
      simp only [PageAccess.fault.injEq, Option.some.injEq, List.mem_cons, List.mem_append, not_or,
        pages, List.map_cons, List.map_nil, List.not_mem_nil, or_false] at hnodup ⊢
      constructor
      · rintro rfl
        exact ⟨.inl rfl, hnodup.1, hwp⟩
      · rintro ⟨rfl | hv, hnot, -⟩
        · rfl
        · exact absurd hv hnot

theorem nodup_access (hq : (pages q).Nodup) (hsize : 0 < size) :
    (pages (access R size p q).2).Nodup := by
  by_cases hp : p ∈ pages q
  · rw [access_of_mem hp]
    exact (pages_use hq hp).nodup_iff.mpr hq
  · by_cases hroom : q.length < size
    · rw [access_of_room hp hroom, pages_append]
      exact List.nodup_append_comm.mp (List.nodup_cons.mpr ⟨hp, hq⟩)
    · have hne : q ≠ [] := by
        rintro rfl
        exact hroom hsize
      obtain ⟨w, rest, hevict⟩ := exists_evict R hne
      have hperm := pages_evict hevict
      have hnodup := (List.nodup_cons.mp (hperm.nodup_iff.mp hq)).2
      have hpr : p ∉ pages rest := fun hmem => hp (hperm.mem_iff.mpr (List.mem_cons_of_mem w hmem))
      rw [access_of_full hp hroom hevict, pages_append]
      exact List.nodup_append_comm.mp (List.nodup_cons.mpr ⟨hpr, hnodup⟩)

end Access

end DemandPager

end OsSimulator.Library
