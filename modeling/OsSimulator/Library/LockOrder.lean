import Mathlib.Logic.Function.Basic
import Mathlib.Data.Nat.Notation

/-!
# Locks taken in increasing order

Agents hold locks and want locks.  `LocksHeld` says that the table of locked locks is right: a lock
is locked while somebody holds it, and at most one agent holds it.  Where every agent wants only
locks that rank above all it holds, a blocked agent waits, at the end of a chain of blocked agents,
for one that is not blocked (`LocksHeld.exists_unblocked`).
-/

set_option autoImplicit false

namespace OsSimulator.Library

section LockOrder

variable {A L : Type*} {locked : L → Bool} {holds holds' wants : A → L → Prop} {a : A} {l : L}

structure LocksHeld (locked : L → Bool) (holds : A → L → Prop) : Prop where
  locked_iff : ∀ l, locked l = true ↔ ∃ a, holds a l
  unique : ∀ l a b, holds a l → holds b l → a = b

/-- The agent wants a lock that is locked. -/
def Blocked (locked : L → Bool) (wants : A → L → Prop) (a : A) : Prop :=
  ∃ l, wants a l ∧ locked l = true

theorem locksHeld_init (h : ∀ a l, ¬ holds a l) : LocksHeld (fun _ : L => false) holds where
  locked_iff := fun l => iff_of_false (by decide) fun ⟨a, ha⟩ => h a l ha
  unique := fun l a _ ha _ => absurd ha (h a l)

theorem LocksHeld.congr (h : LocksHeld locked holds) (heq : ∀ a l, holds' a l ↔ holds a l) :
    LocksHeld locked holds' where
  locked_iff := fun l => (h.locked_iff l).trans (exists_congr fun a => (heq a l).symm)
  unique := fun l a b ha hb => h.unique l a b ((heq a l).mp ha) ((heq b l).mp hb)

/-- An agent locks a lock that is not locked. -/
theorem LocksHeld.acquire [DecidableEq L] (h : LocksHeld locked holds) (hfree : locked l = false)
    (heq : ∀ b m, holds' b m ↔ b = a ∧ m = l ∨ holds b m) :
    LocksHeld (Function.update locked l true) holds' := by
  have hnone : ∀ b, ¬ holds b l := by
    intro b hb
    rw [(h.locked_iff l).mpr ⟨b, hb⟩] at hfree
    cases hfree
  constructor
  · intro m
    by_cases hm : m = l
    · subst hm
      rw [Function.update_self]
      exact iff_of_true rfl ⟨a, (heq a m).mpr (.inl ⟨rfl, rfl⟩)⟩
    · rw [Function.update_of_ne hm, h.locked_iff]
      refine exists_congr fun b => ?_
      rw [heq]
      exact ⟨.inr, fun hb => hb.resolve_left fun hbl => hm hbl.2⟩
  · intro m b c hb hc
    rcases (heq b m).mp hb with ⟨hba, hml⟩ | hb'
    · subst hml
      have hca := ((heq c m).mp hc).resolve_right (hnone c)
      rw [hba, hca.1]
    · have hml : m ≠ l := fun hml => hnone b (hml ▸ hb')
      have hc' := ((heq c m).mp hc).resolve_left fun hcl => hml hcl.2
      exact h.unique m b c hb' hc'

/-- An agent unlocks a lock that it holds. -/
theorem LocksHeld.release [DecidableEq L] (h : LocksHeld locked holds) (hheld : holds a l)
    (heq : ∀ b m, holds' b m ↔ ¬ (b = a ∧ m = l) ∧ holds b m) :
    LocksHeld (Function.update locked l false) holds' := by
  constructor
  · intro m
    by_cases hm : m = l
    · subst hm
      rw [Function.update_self]
      refine iff_of_false (by decide) ?_
      rintro ⟨b, hb⟩
      obtain ⟨hne, hb'⟩ := (heq b m).mp hb
      exact hne ⟨h.unique m b a hb' hheld, rfl⟩
    · rw [Function.update_of_ne hm, h.locked_iff]
      refine exists_congr fun b => ?_
      rw [heq]
      exact ⟨fun hb => ⟨fun hbl => hm hbl.2, hb⟩, fun hb => hb.2⟩
  · intro m b c hb hc
    exact h.unique m b c ((heq b m).mp hb).2 ((heq c m).mp hc).2

/-- No circular wait: where locks are wanted in the order of a bounded rank, a blocked agent implies
a holder that is not blocked. -/
theorem LocksHeld.exists_unblocked (h : LocksHeld locked holds) (rank : L → ℕ) (bound : ℕ)
    (hbound : ∀ l, rank l ≤ bound)
    (hordered : ∀ a l m, holds a l → wants a m → rank l < rank m)
    (hblocked : Blocked locked wants a) : ∃ b l, holds b l ∧ ¬ Blocked locked wants b := by
  obtain ⟨l, hwant, hlocked⟩ := hblocked
  -- the locks along a chain of blocked agents rise in rank, so the chain ends
  induction hn : bound - rank l using Nat.strongRecOn generalizing a l with
  | ind n ih =>
    obtain ⟨b, hb⟩ := (h.locked_iff l).mp hlocked
    by_cases hbb : Blocked locked wants b
    · obtain ⟨m, hwant', hlocked'⟩ := hbb
      have hrank := hordered b l m hb hwant'
      have hm := hbound m
      exact ih (bound - rank m) (by omega) m hwant' hlocked' rfl
    · exact ⟨b, l, hb, hbb⟩

end LockOrder

end OsSimulator.Library
