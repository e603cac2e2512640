import Mathlib.Data.List.Nodup
import Mathlib.Data.List.Perm.Basic
import Mathlib.Order.Bounds.Basic
import Mathlib.Order.Nat

/-!
# A mailbox that remembers

The mailbox keeps every message that was ever put in, in this order, and the numbers of those that
were taken, in the order of taking.  A message is taken once, and it was put in before: the mailbox
carries the proofs.  `Holds` says that a list is what is left: the messages not taken, in the order
in which they were put in.
-/

set_option autoImplicit false

namespace OsSimulator.Library

/-- The messages put in, and the numbers of the messages taken. -/
structure Mailbox (M : Type*) where
  sent : List M
  taken : List ℕ
  taken_lt : ∀ i ∈ taken, i < sent.length
  taken_nodup : taken.Nodup

namespace Mailbox

variable {M : Type*} {b : Mailbox M} {queue pre post : List M} {m : M} {i : ℕ} {P : M → Bool}

def empty : Mailbox M where
  sent := []
  taken := []
  taken_lt := fun _ hi => absurd hi List.not_mem_nil
  taken_nodup := List.nodup_nil

/-- The numbers of the messages that are left. -/
def waiting (b : Mailbox M) : List ℕ := (List.range b.sent.length).filter (· ∉ b.taken)

/-- The messages that were taken, in the order of taking. -/
def received (b : Mailbox M) : List M := b.taken.filterMap (b.sent[·]?)

/-- The messages of the kind `P` that are left. -/
def unreceived (b : Mailbox M) (P : M → Bool) : Set ℕ :=
  {i | i ∉ b.taken ∧ ∃ m, b.sent[i]? = some m ∧ P m = true}

def Holds (b : Mailbox M) (queue : List M) : Prop :=
  queue.map some = b.waiting.map (b.sent[·]?)

def put (b : Mailbox M) (m : M) : Mailbox M where
  sent := b.sent ++ [m]
  taken := b.taken
  taken_lt := fun i hi => by
    have := b.taken_lt i hi
    rw [List.length_append, List.length_singleton]
    omega
  taken_nodup := b.taken_nodup

/-- Taking message `i`, if it is there. -/
def take (b : Mailbox M) (i : ℕ) : Mailbox M :=
  if h : i < b.sent.length ∧ i ∉ b.taken then
    { sent := b.sent
      taken := b.taken ++ [i]
      taken_lt := fun j hj => by
        rcases List.mem_append.mp hj with hj | hj
        · exact b.taken_lt j hj
        · exact List.mem_singleton.mp hj ▸ h.1
      taken_nodup := List.Nodup.append b.taken_nodup (List.nodup_singleton i)
        (List.disjoint_singleton.mpr h.2) }
  else b

/-- The number of the first message of the kind `P` that is left. -/
def earliest (b : Mailbox M) (P : M → Bool) : Option ℕ :=
  b.waiting.find? fun i => (b.sent[i]?).any P

/-! ## What is left -/

theorem mem_waiting : i ∈ b.waiting ↔ i < b.sent.length ∧ i ∉ b.taken := by
  unfold waiting
  rw [List.mem_filter, List.mem_range, decide_eq_true_iff]

theorem waiting_sorted (b : Mailbox M) : b.waiting.Pairwise (· < ·) :=
  List.pairwise_lt_range.filter _

theorem waiting_nodup (b : Mailbox M) : b.waiting.Nodup := b.waiting_sorted.imp Nat.ne_of_lt

/-- Every message was taken once or is left once. -/
theorem taken_append_waiting (b : Mailbox M) :
    (b.taken ++ b.waiting).Perm (List.range b.sent.length) := by
  have hdisjoint : List.Disjoint b.taken b.waiting :=
    fun i htaken hwaiting => (mem_waiting.mp hwaiting).2 htaken
  refine (List.perm_ext_iff_of_nodup
    (List.Nodup.append b.taken_nodup b.waiting_nodup hdisjoint) List.nodup_range).mpr fun i => ?_
  rw [List.mem_append, mem_waiting, List.mem_range]
  constructor
  · rintro (hi | hi)
    · exact b.taken_lt i hi
    · exact hi.1
  · intro hi
    by_cases htaken : i ∈ b.taken
    · exact .inl htaken
    · exact .inr ⟨hi, htaken⟩

theorem mem_unreceived :
    i ∈ b.unreceived P ↔ i ∈ b.waiting ∧ ∃ m, b.sent[i]? = some m ∧ P m = true := by
  constructor
  · rintro ⟨htaken, m, hm, hP⟩
    exact ⟨mem_waiting.mpr ⟨(List.getElem?_eq_some_iff.mp hm).1, htaken⟩, m, hm, hP⟩
  · rintro ⟨hi, hm⟩
    exact ⟨(mem_waiting.mp hi).2, hm⟩

theorem holds_empty : (empty : Mailbox M).Holds [] := rfl

theorem Holds.length_eq (h : b.Holds queue) : queue.length = b.waiting.length := by
  have hlen := congrArg List.length h
  rwa [List.length_map, List.length_map] at hlen

theorem Holds.put (h : b.Holds queue) (m : M) : (b.put m).Holds (queue ++ [m]) := by
  have hnew : b.sent.length ∉ b.taken := fun hmem => lt_irrefl _ (b.taken_lt _ hmem)
  have hwaiting : (b.put m).waiting = b.waiting ++ [b.sent.length] := by
    unfold Mailbox.waiting Mailbox.put
    rw [List.length_append, List.length_singleton, List.range_succ, List.filter_append]
    simp [hnew]
  have hold : ∀ i ∈ b.waiting, (b.sent ++ [m])[i]? = b.sent[i]? :=
    fun i hi => List.getElem?_append_left (mem_waiting.mp hi).1
  unfold Holds
  rw [hwaiting, List.map_append, List.map_append, h]
  congr 1
  · exact (List.map_congr_left hold).symm
  · simp [Mailbox.put]

/-! ## Taking a message -/

variable {wpre wpost : List ℕ}

theorem take_sent (b : Mailbox M) (i : ℕ) : (b.take i).sent = b.sent := by
  unfold Mailbox.take
  split <;> rfl

theorem take_taken (hi : i ∈ b.waiting) : (b.take i).taken = b.taken ++ [i] := by
  unfold Mailbox.take
  rw [dif_pos (mem_waiting.mp hi)]

theorem take_waiting (h : b.waiting = wpre ++ i :: wpost) : (b.take i).waiting = wpre ++ wpost := by
  have hi : i ∈ b.waiting := by simp [h]
  have hnodup := b.waiting_nodup
  rw [h] at hnodup
  obtain ⟨hnot, -⟩ := List.nodup_cons.mp (List.nodup_middle.mp hnodup)
  rw [List.mem_append, not_or] at hnot
  have hfilter : (b.take i).waiting = b.waiting.filter (· ≠ i) := by
    unfold waiting
    rw [take_sent, take_taken hi, List.filter_filter]
    refine List.filter_congr fun j _ => ?_
    simp [not_or, and_comm]
  have hkeep : ∀ {w : List ℕ}, i ∉ w → w.filter (· ≠ i) = w := by
    intro w hw
    refine List.filter_eq_self.mpr fun j hj => ?_
    exact decide_eq_true fun hji => hw (hji ▸ hj)
  rw [hfilter, h, List.filter_append, hkeep hnot.1, List.filter_cons_of_neg (by simp),
    hkeep hnot.2]

/-- The messages of a queue and their numbers. -/
theorem Holds.split (h : b.Holds (pre ++ m :: post)) :
    ∃ wpre i wpost, b.waiting = wpre ++ i :: wpost ∧ b.sent[i]? = some m ∧
      pre.map some = wpre.map (b.sent[·]?) ∧ post.map some = wpost.map (b.sent[·]?) := by
  have hsplit := h.symm
  rw [List.map_append, List.map_cons, List.map_eq_append_iff] at hsplit
  obtain ⟨wpre, w, hwaiting, hwpre, hw⟩ := hsplit
  obtain ⟨i, wpost, rfl, hi, hwpost⟩ := List.map_eq_cons_iff.mp hw
  exact ⟨wpre, i, wpost, hwaiting, hi, hwpre.symm, hwpost.symm⟩

/-- A message that is left, with none of the kind `P` before it, is the first one. -/
theorem isLeast_of_split (hwaiting : b.waiting = wpre ++ i :: wpost) (hi : b.sent[i]? = some m)
    (hm : P m = true) (hbefore : ∀ j ∈ wpre, (b.sent[j]?).any P = false) :
    IsLeast (b.unreceived P) i := by
  have hsorted := b.waiting_sorted
  rw [hwaiting] at hsorted
  have hlater := (List.pairwise_cons.mp (List.pairwise_append.mp hsorted).2.1).1
  refine ⟨mem_unreceived.mpr ⟨by simp [hwaiting], m, hi, hm⟩, fun j hj => ?_⟩
  obtain ⟨hjw, x, hx, hPx⟩ := mem_unreceived.mp hj
  rw [hwaiting, List.mem_append, List.mem_cons] at hjw
  rcases hjw with hjw | hjw | hjw
  · have hnot := hbefore j hjw
    rw [hx, Option.any_some, hPx] at hnot
    cases hnot
  · exact hjw.ge
  · exact (hlater j hjw).le

/-- The first message of the kind `P` in the queue is the first one that is left, and the queue
without it is what is left after taking it. -/
theorem Holds.take (h : b.Holds (pre ++ m :: post)) (hpre : ∀ x ∈ pre, P x = false)
    (hm : P m = true) :
    ∃ i ∈ b.waiting, IsLeast (b.unreceived P) i ∧ b.earliest P = some i ∧ b.sent[i]? = some m ∧
      (b.take i).Holds (pre ++ post) := by
  obtain ⟨wpre, i, wpost, hwaiting, hi, hwpre, hwpost⟩ := h.split
  have hbefore : ∀ j ∈ wpre, (b.sent[j]?).any P = false := by
    intro j hj
    have hj' : b.sent[j]? ∈ pre.map some := by
      rw [hwpre]
      exact List.mem_map_of_mem hj
    obtain ⟨x, hx, hxj⟩ := List.mem_map.mp hj'
    rw [← hxj, Option.any_some, hpre x hx]
  refine ⟨i, by simp [hwaiting], isLeast_of_split hwaiting hi hm hbefore, ?_, hi, ?_⟩
  · unfold earliest
    rw [List.find?_eq_some_iff_append]
    refine ⟨by rw [hi, Option.any_some, hm], wpre, wpost, hwaiting, fun j hj => ?_⟩
    rw [hbefore j hj]
    rfl
  · unfold Holds
    rw [take_waiting hwaiting, take_sent, List.map_append, List.map_append, hwpre, hwpost]

/-- Where the queue has no message of the kind `P`, none is left. -/
theorem Holds.none (h : b.Holds queue) (hnone : ∀ x ∈ queue, P x = false) :
    b.unreceived P = ∅ ∧ b.earliest P = none := by
  have hwaiting : ∀ j ∈ b.waiting, (b.sent[j]?).any P = false := by
    intro j hj
    have hj' : b.sent[j]? ∈ queue.map some := by
      rw [h]
      exact List.mem_map_of_mem hj
    obtain ⟨x, hx, hxj⟩ := List.mem_map.mp hj'
    rw [← hxj, Option.any_some, hnone x hx]
  constructor
  · refine Set.eq_empty_of_forall_notMem fun j hj => ?_
    obtain ⟨hjw, x, hx, hPx⟩ := mem_unreceived.mp hj
    have hnot := hwaiting j hjw
    rw [hx, Option.any_some, hPx] at hnot
    cases hnot
  · unfold earliest
    rw [List.find?_eq_none]
    intro j hj
    rw [hwaiting j hj]
    exact Bool.false_ne_true

theorem received_put (b : Mailbox M) (m : M) : (b.put m).received = b.received := by
  unfold received
  refine List.filterMap_congr fun i hi => ?_
  exact List.getElem?_append_left (b.taken_lt i hi)

theorem received_take (hi : i ∈ b.waiting) (hm : b.sent[i]? = some m) :
    (b.take i).received = b.received ++ [m] := by
  unfold received
  rw [take_taken hi, take_sent, List.filterMap_append, List.filterMap_cons_some hm,
    List.filterMap_nil]

end Mailbox

end OsSimulator.Library
