import Mathlib.Logic.Function.Basic
import Mathlib.Order.Basic
import Mathlib.Data.List.Nodup

/-!
# Rooted trees stored twice

A tree over nodes that come and go, kept both as parent pointers and as child lists.  The
two agree when a node is in the list of its parent and in no other (`IsTree`); the parent is
smaller than the child in some order, so that there are no cycles.

A tree grows by leaves (`addLeaf`), loses leaves (`removeLeaf`), and the children of a node
can be handed to the root (`adopt`).  All three keep `IsTree`.  When no node but the root
has children, every node is a child of the root (`IsTree.parent_eq_root`).
-/

set_option autoImplicit false

namespace OsSimulator.Library

/-- Parent pointers and child lists.  A node without a parent entry is absent; the root has
an entry too, which means nothing. -/
@[ext] structure Family (ι : Type*) where
  parent : ι → Option ι
  children : ι → List ι

namespace Family

variable {ι : Type*}

/-- The two sides agree, and the parent pointers lead down to the root. -/
structure IsTree [LT ι] (root : ι) (f : Family ι) : Prop where
  root_mem : f.parent root ≠ none
  root_lt : ∀ i, f.parent i ≠ none → i ≠ root → root < i
  parent_lt : ∀ i p, f.parent i = some p → i ≠ root → f.parent p ≠ none ∧ p < i
  mem_children : ∀ i j, j ∈ f.children i ↔ j ≠ root ∧ f.parent j = some i
  nodup : ∀ i, (f.children i).Nodup

/-- The leaf `c` below `p`. -/
def addLeaf [DecidableEq ι] (p c : ι) (f : Family ι) : Family ι where
  parent := Function.update f.parent c (some p)
  children := Function.update f.children p (f.children p ++ [c])

/-- Without the leaf `c` of `p`. -/
def removeLeaf [DecidableEq ι] (p c : ι) (f : Family ι) : Family ι where
  parent := Function.update f.parent c none
  children := Function.update f.children p ((f.children p).erase c)

/-- The root takes the children of `i`. -/
def adopt [DecidableEq ι] (root i : ι) (f : Family ι) : Family ι where
  parent := fun j => if j ∈ f.children i then some root else f.parent j
  children :=
    Function.update (Function.update f.children root (f.children root ++ f.children i)) i []

namespace IsTree

section

variable [LT ι] {root i j p : ι} {f : Family ι}

/-- A node that is not there has no children. -/
theorem children_of_absent (hf : IsTree root f) (h : f.parent i = none) : f.children i = [] := by
  apply List.eq_nil_iff_forall_not_mem.mpr
  intro j hj
  obtain ⟨hjr, hji⟩ := (hf.mem_children i j).mp hj
  exact (hf.parent_lt j i hji hjr).1 h

/-- A node is in one child list only. -/
theorem parent_unique (hf : IsTree root f) (hi : j ∈ f.children i) (hp : j ∈ f.children p) :
    i = p := by
  have h₁ := ((hf.mem_children i j).mp hi).2
  have h₂ := ((hf.mem_children p j).mp hp).2
  exact Option.some.inj (h₁.symm.trans h₂)

/-- When only the root has children, every other node is a child of the root. -/
theorem parent_eq_root (hf : IsTree root f)
    (hchildless : ∀ i, i ≠ root → f.children i = []) (hi : f.parent i ≠ none) (hne : i ≠ root) :
    f.parent i = some root := by
  obtain ⟨p, hp⟩ := Option.ne_none_iff_exists'.mp hi
  have hmem : i ∈ f.children p := (hf.mem_children p i).mpr ⟨hne, hp⟩
  by_cases hpr : p = root
  · rw [hp, hpr]
  · rw [hchildless p hpr] at hmem
    cases hmem

end

section

variable [DecidableEq ι] [Preorder ι] {root i p c : ι} {f : Family ι}

theorem addLeaf (hf : IsTree root f) (hc : f.parent c = none) (hp : f.parent p ≠ none)
    (hpc : p < c) : IsTree root (f.addLeaf p c) := by
  have hcr : c ≠ root := fun heq => hf.root_mem (heq ▸ hc)
  have hrc : root < c := by
    by_cases hpr : p = root
    · exact hpr ▸ hpc
    · exact (hf.root_lt p hp hpr).trans hpc
  obtain ⟨hroot, hlt, hpar, hmem, hnodup⟩ := hf
  unfold Family.addLeaf
  constructor <;> grind [Function.update_apply]

/-- A leaf that is removed leaves a tree behind. -/
theorem removeLeaf (hf : IsTree root f) (hc : c ∈ f.children p) (hleaf : f.children c = []) :
    IsTree root (f.removeLeaf p c) := by
  have hcp := (hf.mem_children p c).mp hc
  obtain ⟨hroot, hlt, hpar, hmem, hnodup⟩ := hf
  -- nobody points to the leaf
  have hno : ∀ j, j ≠ root → f.parent j ≠ some c := by
    intro j hjr hj
    have : j ∈ f.children c := (hmem c j).mpr ⟨hjr, hj⟩
    rw [hleaf] at this
    cases this
  unfold Family.removeLeaf
  constructor <;> grind [Function.update_apply, List.Nodup.mem_erase_iff, List.Nodup.erase]

theorem adopt (hf : IsTree root f) (hi : i ≠ root) : IsTree root (f.adopt root i) := by
  obtain ⟨hroot, hlt, hpar, hmem, hnodup⟩ := hf
  have happ : (f.children root ++ f.children i).Nodup := by
    refine (hnodup root).append (hnodup i) ?_
    intro j hj hj'
    have h₁ := ((hmem root j).mp hj).2
    have h₂ := ((hmem i j).mp hj').2
    exact hi (Option.some.inj (h₂.symm.trans h₁))
  unfold Family.adopt
  constructor <;> grind [Function.update_apply]

end

end IsTree

end Family

end OsSimulator.Library
