import Mathlib.Data.Int.Notation
import Mathlib.Data.List.Basic
import Mathlib.Data.List.Perm.Basic

/-!
# Round-robin service

One customer is in service, the others wait in a line.  A customer that has been served for a
quantum of `Q` ticks goes to the back of the line; `slice` counts the ticks of the customer in
service.  One tick is four moves: `join` (arrivals), `expire`, `call` (of the first in line to a
free server) and `serve`, by which the customer in service may be done.  Nothing here depends on
how much service a customer needs.

* `Abreast`: between two customers that joined together the service received differs by at
  most a quantum, and never to the disadvantage of the first of them.  The relation says by how
  much it differs in each of the four positions the two can be in.
* `Ahead`: the service that can still be given before a waiting customer is called, a quantum for
  each customer before it and the rest of the current slice.  No move increases it and every tick
  of service takes one off it.
-/

set_option autoImplicit false

namespace OsSimulator.Library

structure Line (ι : Type*) where
  waiting : List ι
  inService : Option ι
  slice : ℤ

variable {ι : Type*}

namespace Line

def join (new : List ι) (L : Line ι) : Line ι := { L with waiting := L.waiting ++ new }

def expire (Q : ℤ) (L : Line ι) : Line ι :=
  match L.inService with
  | some k => if Q ≤ L.slice then ⟨L.waiting ++ [k], none, 0⟩ else L
  | none => L

def call (L : Line ι) : Line ι :=
  match L.inService, L.waiting with
  | none, k :: rest => ⟨rest, some k, 0⟩
  | _, _ => L

def serve (done : Bool) (L : Line ι) : Line ι :=
  match L.inService with
  | some _ => if done then ⟨L.waiting, none, 0⟩ else { L with slice := L.slice + 1 }
  | none => L

/-- The line during a tick, when it is decided who is served. -/
def turn (Q : ℤ) (new : List ι) (L : Line ι) : Line ι := ((L.join new).expire Q).call

/-- The slice is within the quantum. -/
structure Paced (Q : ℤ) (L : Line ι) : Prop where
  nonneg : 0 ≤ L.slice
  le : L.slice ≤ Q

variable {Q : ℤ} {L : Line ι} {new : List ι}

/-! ## What the moves can do -/

theorem expire_cases (Q : ℤ) (L : Line ι) :
    (∃ k, L.inService = some k ∧ Q ≤ L.slice ∧ L.expire Q = ⟨L.waiting ++ [k], none, 0⟩) ∨
      ((∀ k, L.inService = some k → L.slice < Q) ∧ L.expire Q = L) := by
  unfold expire
  cases hk : L.inService with
  | none => exact .inr ⟨fun k h => absurd h (by simp), rfl⟩
  | some k =>
    by_cases hQ : Q ≤ L.slice
    · exact .inl ⟨k, rfl, hQ, if_pos hQ⟩
    · exact .inr ⟨fun _ _ => Int.not_le.mp hQ, if_neg hQ⟩

theorem call_cases (L : Line ι) :
    (∃ k rest, L.inService = none ∧ L.waiting = k :: rest ∧ L.call = ⟨rest, some k, 0⟩) ∨
      ((L.inService = none → L.waiting = []) ∧ L.call = L) := by
  unfold call
  cases hk : L.inService with
  | none =>
    cases hw : L.waiting with
    | nil => exact .inr ⟨fun _ => rfl, rfl⟩
    | cons k rest => exact .inl ⟨k, rest, rfl, rfl, rfl⟩
  | some k => exact .inr ⟨fun h => absurd h (by simp), rfl⟩

/-- After a tick's decision the customer in service has some of its quantum left. -/
theorem turn_slice_lt (hQ : 1 ≤ Q) (new : List ι) (L : Line ι) {k : ι}
    (hk : (L.turn Q new).inService = some k) : (L.turn Q new).slice < Q := by
  unfold turn at hk ⊢
  rcases call_cases ((L.join new).expire Q) with ⟨i, rest, -, -, hcall⟩ | ⟨-, hcall⟩
  · rw [hcall]
    exact Int.lt_of_lt_of_le Int.zero_lt_one hQ
  · rw [hcall] at hk ⊢
    rcases expire_cases Q (L.join new) with ⟨i, -, -, hexp⟩ | ⟨hlt, hexp⟩
    · rw [hexp] at hk
      cases hk
    · rw [hexp] at hk ⊢
      exact hlt k hk

theorem Paced.turn (hQ : 0 ≤ Q) (h : Paced Q L) (new : List ι) : Paced Q (L.turn Q new) := by
  have hexpire : Paced Q ((L.join new).expire Q) := by
    rcases expire_cases Q (L.join new) with ⟨k, -, -, hexp⟩ | ⟨-, hexp⟩
    · rw [hexp]
      exact ⟨Int.le_refl 0, hQ⟩
    · rw [hexp]
      exact ⟨h.nonneg, h.le⟩
  unfold Line.turn
  rcases call_cases ((L.join new).expire Q) with ⟨k, rest, -, -, hcall⟩ | ⟨-, hcall⟩
  · rw [hcall]
    exact ⟨Int.le_refl 0, hQ⟩
  · rw [hcall]
    exact hexpire

theorem Paced.serve (hQ : 0 ≤ Q) (h : Paced Q L) (hlt : ∀ k, L.inService = some k → L.slice < Q)
    (done : Bool) : Paced Q (L.serve done) := by
  unfold Line.serve
  cases hk : L.inService with
  | none => exact h
  | some k =>
    have hslice := hlt k hk
    have hnonneg := h.nonneg
    cases done with
    | true => exact ⟨Int.le_refl 0, hQ⟩
    | false =>
      constructor
      · show 0 ≤ L.slice + 1
        omega
      · show L.slice + 1 ≤ Q
        omega

end Line

/-! ## Two customers that joined together -/

section Abreast

/-- Customer `i` has been served `d` ticks more than `j`, which joined with it, right after it. -/
inductive Abreast (Q : ℤ) (i j : ι) (d : ℤ) (L : Line ι) : Prop where
  /-- Both wait for a turn of the same round. -/
  | waiting (order : [i, j].Sublist L.waiting) (diff : d = 0)
  | first (slot : L.inService = some i) (behind : j ∈ L.waiting) (diff : d = L.slice)
  /-- The first has had its turn of the round. -/
  | between (order : [j, i].Sublist L.waiting) (diff : d = Q)
  | second (slot : L.inService = some j) (behind : i ∈ L.waiting) (diff : d = Q - L.slice)

variable {Q d : ℤ} {i j : ι} {L : Line ι}

/-- **Fairness** at any point of the run. -/
theorem Abreast.bounds (hQ : 0 ≤ Q) (hL : L.Paced Q) (h : Abreast Q i j d L) : 0 ≤ d ∧ d ≤ Q := by
  have hnonneg := hL.nonneg
  have hle := hL.le
  cases h with
  | waiting _ diff => omega
  | first _ _ diff => omega
  | between _ diff => omega
  | second _ _ diff => omega

theorem Abreast.join (h : Abreast Q i j d L) (new : List ι) : Abreast Q i j d (L.join new) := by
  have hsub : L.waiting.Sublist (L.waiting ++ new) := List.sublist_append_left _ _
  cases h with
  | waiting order diff => exact .waiting (order.trans hsub) diff
  | first slot behind diff => exact .first slot (hsub.subset behind) diff
  | between order diff => exact .between (order.trans hsub) diff
  | second slot behind diff => exact .second slot (hsub.subset behind) diff

/-- A customer whose quantum has expired is behind those who wait. -/
theorem Abreast.expire (hL : L.Paced Q) (h : Abreast Q i j d L) :
    Abreast Q i j d (L.expire Q) := by
  rcases Line.expire_cases Q L with ⟨k, hk, hQ, hexp⟩ | ⟨-, hexp⟩
  · have hslice : L.slice = Q := Int.le_antisymm hL.le hQ
    have hsub : L.waiting.Sublist (L.waiting ++ [k]) := List.sublist_append_left _ _
    have hlast : ∀ {l : ι}, l ∈ L.waiting → [l, k].Sublist (L.waiting ++ [k]) := fun hl =>
      (List.singleton_sublist.mpr hl).append (List.Sublist.refl [k])
    rw [hexp]
    cases h with
    | waiting order diff => exact .waiting (order.trans hsub) diff
    | between order diff => exact .between (order.trans hsub) diff
    | first slot behind diff =>
      obtain rfl : k = i := Option.some.inj (hk.symm.trans slot)
      exact .between (hlast behind) (by omega)
    | second slot behind diff =>
      obtain rfl : k = j := Option.some.inj (hk.symm.trans slot)
      exact .waiting (hlast behind) (by omega)
  · rw [hexp]
    exact h

/-- Calling the first in line starts the turn of one of the two, or changes nothing for them. -/
theorem Abreast.call (h : Abreast Q i j d L) : Abreast Q i j d L.call := by
  rcases Line.call_cases L with ⟨k, rest, hfree, hwaiting, hcall⟩ | ⟨-, hcall⟩
  · rw [hcall]
    cases h with
    | waiting order diff =>
      rw [hwaiting] at order
      rcases List.sublist_cons_iff.mp order with hrest | ⟨r, hr, hrest⟩
      · exact .waiting hrest diff
      · obtain ⟨rfl, rfl⟩ := List.cons.inj hr
        exact .first rfl (List.singleton_sublist.mp hrest) diff
    | between order diff =>
      rw [hwaiting] at order
      rcases List.sublist_cons_iff.mp order with hrest | ⟨r, hr, hrest⟩
      · exact .between hrest diff
      · obtain ⟨rfl, rfl⟩ := List.cons.inj hr
        refine .second rfl (List.singleton_sublist.mp hrest) ?_
        show d = Q - 0
        omega
    | first slot _ _ => rw [hfree] at slot; cases slot
    | second slot _ _ => rw [hfree] at slot; cases slot
  · rw [hcall]
    exact h

theorem Abreast.turn (hL : L.Paced Q) {new : List ι} (h : Abreast Q i j d (L.join new)) :
    Abreast Q i j d (L.turn Q new) := by
  have hjoin : (L.join new).Paced Q := ⟨hL.nonneg, hL.le⟩
  exact (h.expire hjoin).call

/-- The service that a tick gives to a customer. -/
def gain [DecidableEq ι] (L : Line ι) (i : ι) : ℤ := if L.inService = some i then 1 else 0

/-- **One tick of service** changes the difference by what it gives to the two; neither of them
is done. -/
theorem Abreast.serve [DecidableEq ι]
    (hwaiting : ∀ k ∈ L.waiting, L.inService ≠ some k) {done : Bool}
    (hi : L.inService = some i → done = false) (hj : L.inService = some j → done = false)
    (h : Abreast Q i j d L) : Abreast Q i j (d + gain L i - gain L j) (L.serve done) := by
  unfold gain
  have hsame : ∀ {a b : ι}, [a, b].Sublist L.waiting →
      L.inService ≠ some a ∧ L.inService ≠ some b :=
    fun horder => ⟨hwaiting _ (horder.subset (by simp)), hwaiting _ (horder.subset (by simp))⟩
  have hserve : (L.serve done).waiting = L.waiting := by
    unfold Line.serve
    cases L.inService with
    | none => rfl
    | some k => cases done <;> rfl
  cases h with
  | waiting order diff =>
    obtain ⟨hi, hj⟩ := hsame order
    rw [if_neg hi, if_neg hj]
    exact .waiting (hserve ▸ order) (by omega)
  | between order diff =>
    obtain ⟨hj, hi⟩ := hsame order
    rw [if_neg hi, if_neg hj]
    exact .between (hserve ▸ order) (by omega)
  | first slot behind diff =>
    have hne : L.inService ≠ some j := hwaiting j behind
    obtain rfl := hi slot
    have hslice : (L.serve false).slice = L.slice + 1 := by simp [Line.serve, slot]
    rw [if_pos slot, if_neg hne]
    refine .first ?_ (hserve ▸ behind) (by omega)
    simp [Line.serve, slot]
  | second slot behind diff =>
    have hne : L.inService ≠ some i := hwaiting i behind
    obtain rfl := hj slot
    have hslice : (L.serve false).slice = L.slice + 1 := by simp [Line.serve, slot]
    rw [if_neg hne, if_pos slot]
    refine .second ?_ (hserve ▸ behind) (by omega)
    simp [Line.serve, slot]

end Abreast

/-! ## The service ahead of a waiting customer -/

section Ahead

/-- What is left of the slice of the customer in service. -/
def Line.rest (Q : ℤ) (L : Line ι) : ℤ := if L.inService.isSome then Q - L.slice else 0

/-- Customer `i` waits, and at most `c` ticks of service are given before it is called. -/
def Ahead (Q : ℤ) (i : ι) (c : ℤ) (L : Line ι) : Prop :=
  ∃ before after, L.waiting = before ++ i :: after ∧ Q * before.length + L.rest Q ≤ c

variable {Q c : ℤ} {i : ι} {L : Line ι}

theorem Ahead.nonneg (hQ : 0 ≤ Q) (hL : L.slice ≤ Q) (h : Ahead Q i c L) : 0 ≤ c := by
  obtain ⟨before, after, -, hle⟩ := h
  have hbefore : 0 ≤ Q * before.length := Int.mul_nonneg hQ (Int.natCast_nonneg _)
  have hrest : 0 ≤ L.rest Q := by
    unfold Line.rest
    split <;> omega
  omega

/-- At most a quantum for each other customer. -/
theorem ahead_of_mem (hQ : 0 ≤ Q) (hL : 0 ≤ L.slice) (hi : i ∈ L.waiting) {m : ℕ}
    (hm : L.waiting.length + L.inService.toList.length ≤ m + 1) : Ahead Q i (Q * m) L := by
  obtain ⟨before, after, hsplit⟩ := List.append_of_mem hi
  refine ⟨before, after, hsplit, ?_⟩
  rw [hsplit, List.length_append, List.length_cons] at hm
  have hrest : L.rest Q ≤ Q * L.inService.toList.length := by
    unfold Line.rest
    cases L.inService with
    | none => simp
    | some k =>
      simp only [Option.isSome_some, if_true, Option.toList_some, List.length_singleton,
        Int.natCast_one, Int.mul_one]
      omega
  have hcount : (before.length : ℤ) + L.inService.toList.length ≤ m := by omega
  calc Q * before.length + L.rest Q
      ≤ Q * before.length + Q * L.inService.toList.length := Int.add_le_add_left hrest _
    _ = Q * (before.length + L.inService.toList.length) := (Int.mul_add ..).symm
    _ ≤ Q * m := Int.mul_le_mul_of_nonneg_left hcount hQ

theorem Ahead.join (h : Ahead Q i c L) (new : List ι) : Ahead Q i c (L.join new) := by
  obtain ⟨before, after, hsplit, hle⟩ := h
  refine ⟨before, after ++ new, ?_, hle⟩
  show L.waiting ++ new = _
  rw [hsplit]
  simp

theorem Ahead.expire (hL : L.slice ≤ Q) (h : Ahead Q i c L) : Ahead Q i c (L.expire Q) := by
  rcases Line.expire_cases Q L with ⟨k, hk, -, hexp⟩ | ⟨-, hexp⟩
  · obtain ⟨before, after, hsplit, hle⟩ := h
    rw [hexp]
    refine ⟨before, after ++ [k], ?_, ?_⟩
    · show L.waiting ++ [k] = _
      rw [hsplit]
      simp
    · have hrest : L.rest Q = Q - L.slice := by simp [Line.rest, hk]
      show Q * before.length + 0 ≤ c
      omega
  · rw [hexp]
    exact h

/-- The waiting customer is called, or the customer before it pays with its own quantum. -/
theorem Ahead.call (h : Ahead Q i c L) :
    (L.call.inService = some i ∧ 0 ≤ c) ∨ (Ahead Q i c L.call ∧ L.call.inService.isSome) := by
  obtain ⟨before, after, hsplit, hle⟩ := h
  rcases Line.call_cases L with ⟨k, rest, hfree, hwaiting, hcall⟩ | ⟨hbusy, hcall⟩
  · rw [hcall]
    have hrest : L.rest Q = 0 := by simp [Line.rest, hfree]
    cases before with
    | nil =>
      obtain ⟨rfl, -⟩ := List.cons.inj (hwaiting.symm.trans hsplit)
      simp only [List.length_nil, Int.natCast_zero, Int.mul_zero] at hle
      exact .inl ⟨rfl, by omega⟩
    | cons b before =>
      obtain ⟨-, hrest'⟩ := List.cons.inj (hwaiting.symm.trans hsplit)
      refine .inr ⟨⟨before, after, hrest', ?_⟩, rfl⟩
      rw [List.length_cons, Int.natCast_succ, Int.mul_add, Int.mul_one] at hle
      show Q * before.length + (Q - 0) ≤ c
      omega
  · rw [hcall]
    refine .inr ⟨⟨before, after, hsplit, hle⟩, ?_⟩
    cases hk : L.inService with
    | none =>
      have hnil := hbusy hk
      rw [hsplit] at hnil
      simp at hnil
    | some k => rfl

/-- A tick of service is one tick less ahead. -/
theorem Ahead.serve (hbusy : L.inService.isSome) (hlt : L.slice < Q) (h : Ahead Q i c L)
    (done : Bool) : Ahead Q i (c - 1) (L.serve done) := by
  obtain ⟨before, after, hsplit, hle⟩ := h
  obtain ⟨k, hk⟩ := Option.isSome_iff_exists.mp hbusy
  have hrest : L.rest Q = Q - L.slice := by simp [Line.rest, hk]
  cases done with
  | true =>
    refine ⟨before, after, by simp [Line.serve, hk, hsplit], ?_⟩
    have hrest' : (L.serve true).rest Q = 0 := by simp [Line.serve, hk, Line.rest]
    omega
  | false =>
    refine ⟨before, after, by simp [Line.serve, hk, hsplit], ?_⟩
    have hrest' : (L.serve false).rest Q = Q - (L.slice + 1) := by
      simp [Line.serve, hk, Line.rest]
    omega

/-- **One tick**: a customer that waits with `c` ticks ahead of it is called, or waits with
`c - 1` ticks ahead of it. -/
theorem Ahead.tick (hQ : 1 ≤ Q) (hL : L.slice ≤ Q) {new : List ι} (h : Ahead Q i c (L.join new))
    (done : Bool) :
    ((L.turn Q new).inService = some i ∧ 0 ≤ c) ∨
      Ahead Q i (c - 1) ((L.turn Q new).serve done) := by
  have hexpire : Ahead Q i c ((L.join new).expire Q) := h.expire hL
  rcases hexpire.call with hcalled | ⟨hahead, hbusy⟩
  · exact .inl hcalled
  · obtain ⟨k, hk⟩ := Option.isSome_iff_exists.mp hbusy
    exact .inr (Ahead.serve hbusy (L.turn_slice_lt hQ new hk) hahead done)

end Ahead

end OsSimulator.Library
