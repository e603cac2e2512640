import Mathlib.Data.List.Basic

/-!
# Doubly linked lists

Nodes are values of any type `P`, and the two links of a node are given by functions
`next` and `prev`.  `Linked next prev before ps after` says that the nodes `ps`, in this
order, form a segment between `before` and `after`.  A whole list is a segment between
`none` and `none`.

Lists are changed by writing links.  The rules `Linked.insert_after` and
`Linked.remove_after` say which links have to be written; all other links only have to
stay what they are.
-/

set_option autoImplicit false

namespace OsSimulator.Library

variable {P : Type*}

def Linked (next prev : P → Option P) : Option P → List P → Option P → Prop
  | _, [], _ => True
  | before, p :: ps, after =>
    prev p = before ∧ next p = ps.head?.or after ∧ Linked next prev (some p) ps after

/-- The nodes that a loop along `next` visits in at most `fuel` rounds. -/
def walk (next : P → Option P) : ℕ → Option P → List P
  | 0, _ => []
  | _ + 1, none => []
  | fuel + 1, some p => p :: walk next fuel (next p)

section Segments

variable {next prev next' prev' : P → Option P} {before after : Option P} {xs ys ps : List P}
  {p q : P}

theorem linked_append :
    Linked next prev before (xs ++ ys) after ↔
      Linked next prev before xs (ys.head?.or after) ∧
        Linked next prev (xs.getLast?.or before) ys after := by
  induction xs generalizing before with
  | nil => simp [Linked]
  | cons x xs ih =>
    simp only [List.cons_append, Linked, ih, List.head?_append, List.getLast?_cons, Option.or_assoc]
    have hlast : (xs.getLast?.or (some x)) = (some (xs.getLast?.getD x)).or before := by
      cases xs.getLast? <;> rfl
    rw [hlast]
    tauto

/-- A segment depends on the links of its own nodes only. -/
theorem Linked.congr (h : Linked next prev before ps after)
    (hlinks : ∀ p ∈ ps, next' p = next p ∧ prev' p = prev p) :
    Linked next' prev' before ps after := by
  induction ps generalizing before with
  | nil => trivial
  | cons p ps ih =>
    obtain ⟨hprev, hnext, hrest⟩ := h
    obtain ⟨hn, hp⟩ := hlinks p List.mem_cons_self
    refine ⟨hp.trans hprev, hn.trans hnext, ih hrest ?_⟩
    intro r hr
    exact hlinks r (List.mem_cons_of_mem p hr)

/-- Changing the node before a segment is a write to its first back link. -/
theorem Linked.rebase {before' : Option P} (h : Linked next prev before ps after)
    (hhead : ∀ p ∈ ps.head?, prev' p = before') (hnext : ∀ p ∈ ps, next' p = next p)
    (htail : ∀ p ∈ ps.tail, prev' p = prev p) : Linked next' prev' before' ps after := by
  cases ps with
  | nil => trivial
  | cons p ps =>
    obtain ⟨-, hn, hrest⟩ := h
    refine ⟨hhead p rfl, (hnext p List.mem_cons_self).trans hn, hrest.congr ?_⟩
    intro r hr
    exact ⟨hnext r (List.mem_cons_of_mem p hr), htail r hr⟩

/-- In a whole list the two links of neighbours point at each other. -/
theorem Linked.neighbours (h : Linked next prev none (xs ++ p :: q :: ys) none) :
    next p = some q ∧ prev q = some p := by
  obtain ⟨-, -, hnext, hprev, -⟩ := linked_append.mp h
  exact ⟨hnext, hprev⟩

theorem Linked.exists_of_next (h : Linked next prev none ps none) (hp : p ∈ ps)
    (hnext : next p = some q) : ∃ xs ys, ps = xs ++ p :: q :: ys := by
  obtain ⟨xs, ys, rfl⟩ := List.append_of_mem hp
  obtain ⟨-, -, hhead, -⟩ := linked_append.mp h
  rw [hnext, Option.or_none] at hhead
  obtain ⟨ys', rfl⟩ := List.head?_eq_some_iff.mp hhead.symm
  exact ⟨xs, ys', rfl⟩

theorem Linked.exists_of_prev (h : Linked next prev none ps none) (hq : q ∈ ps)
    (hprev : prev q = some p) : ∃ xs ys, ps = xs ++ p :: q :: ys := by
  obtain ⟨xs, ys, rfl⟩ := List.append_of_mem hq
  obtain ⟨-, hlast, -⟩ := linked_append.mp h
  rw [hprev, Option.or_none] at hlast
  obtain ⟨xs', rfl⟩ := List.getLast?_eq_some_iff.mp hlast.symm
  exact ⟨xs', ys, by simp⟩

theorem Linked.mem_of_next (h : Linked next prev none ps none) (hp : p ∈ ps)
    (hnext : next p = some q) : q ∈ ps := by
  obtain ⟨xs, ys, rfl⟩ := h.exists_of_next hp hnext
  simp

theorem Linked.mem_of_prev (h : Linked next prev none ps none) (hq : q ∈ ps)
    (hprev : prev q = some p) : p ∈ ps := by
  obtain ⟨xs, ys, rfl⟩ := h.exists_of_prev hq hprev
  simp

/-- The back links are the reverse of the links. -/
theorem Linked.prev_iff (h : Linked next prev none ps none) (hp : p ∈ ps) (hq : q ∈ ps) :
    prev q = some p ↔ next p = some q := by
  constructor
  · intro hprev
    obtain ⟨xs, ys, rfl⟩ := h.exists_of_prev hq hprev
    exact h.neighbours.1
  · intro hnext
    obtain ⟨xs, ys, rfl⟩ := h.exists_of_next hp hnext
    exact h.neighbours.2

/-- **Insertion** of a new node `q` after `p`. -/
theorem Linked.insert_after (h : Linked next prev before (xs ++ p :: ys) after)
    (hxs : ∀ x ∈ xs, next' x = next x ∧ prev' x = prev x)
    (hp : next' p = some q ∧ prev' p = prev p) (hq : next' q = next p ∧ prev' q = some p)
    (hhead : ∀ y ∈ ys.head?, prev' y = some q) (hnext : ∀ y ∈ ys, next' y = next y)
    (htail : ∀ y ∈ ys.tail, prev' y = prev y) :
    Linked next' prev' before (xs ++ p :: q :: ys) after := by
  obtain ⟨hleft, hprevp, hnextp, hright⟩ := linked_append.mp h
  refine linked_append.mpr ⟨hleft.congr hxs, hp.2.trans hprevp, hp.1, hq.2, hq.1.trans hnextp, ?_⟩
  exact hright.rebase hhead hnext htail

/-- **Removal** of the node `q` after `p`. -/
theorem Linked.remove_after (h : Linked next prev before (xs ++ p :: q :: ys) after)
    (hxs : ∀ x ∈ xs, next' x = next x ∧ prev' x = prev x)
    (hp : next' p = next q ∧ prev' p = prev p)
    (hhead : ∀ y ∈ ys.head?, prev' y = some p) (hnext : ∀ y ∈ ys, next' y = next y)
    (htail : ∀ y ∈ ys.tail, prev' y = prev y) :
    Linked next' prev' before (xs ++ p :: ys) after := by
  obtain ⟨hleft, hprevp, -, -, hnextq, hright⟩ := linked_append.mp h
  refine linked_append.mpr ⟨hleft.congr hxs, hp.2.trans hprevp, hp.1.trans hnextq, ?_⟩
  exact hright.rebase hhead hnext htail

/-- A loop along `next` visits the whole list, given enough rounds. -/
theorem Linked.walk_eq (h : Linked next prev before ps none) {fuel : ℕ} (hfuel : ps.length ≤ fuel) :
    walk next fuel ps.head? = ps := by
  induction ps generalizing before fuel with
  | nil => cases fuel <;> rfl
  | cons p ps ih =>
    cases fuel with
    | zero => simp at hfuel
    | succ fuel =>
      obtain ⟨-, hnext, hrest⟩ := h
      rw [Option.or_none] at hnext
      show p :: walk next fuel (next p) = p :: ps
      rw [hnext, ih hrest (by simpa using hfuel)]

end Segments

end OsSimulator.Library
