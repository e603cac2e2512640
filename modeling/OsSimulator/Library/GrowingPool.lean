import Mathlib.Data.List.Induction
import Mathlib.Data.List.Chain

/-!
# A pool that only grows

A pool starts with some workers.  When a worker gets busy with something else, a new one is
created in its place; when it is done, it stays idle and is not used again.  The number of
workers is then bounded by their number at the start and the largest number that were busy at
the same time exactly when no worker was created while another was idle
(`total_le_peak_iff`).
-/

set_option autoImplicit false

namespace OsSimulator.Library

/-! ## Histories -/

section History

variable {α β : Type*} {R : α → α → Prop} {l l' : List α} {a b c d : α}

/-- The list leads from its first element `a` to its last element `b`. -/
structure Trail (R : α → α → Prop) (l : List α) (a b : α) : Prop where
  chain : l.IsChain R
  head : l.head? = some a
  last : l.getLast? = some b

theorem Trail.singleton (a : α) : Trail R [a] a a := ⟨.singleton a, rfl, rfl⟩

/-- Where two trails meet, only their ends are compared. -/
theorem Trail.isChain_append {S : α → α → Prop} (h : Trail R l a b) (h' : Trail R l' c d) :
    (l ++ l').IsChain S ↔ l.IsChain S ∧ S b c ∧ l'.IsChain S := by
  rw [List.isChain_append, h.last, h'.head]
  simp only [Option.mem_def, Option.some.injEq, forall_eq']
  exact and_congr_right fun _ => and_comm

theorem Trail.append (h : Trail R l a b) (hbc : R b c) (h' : Trail R l' c d) :
    Trail R (l ++ l') a d := by
  refine ⟨(h.isChain_append h').mpr ⟨h.chain, hbc, h'.chain⟩, ?_, ?_⟩
  · rw [List.head?_append, h.head, Option.some_or]
  · rw [List.getLast?_append, h'.last, Option.some_or]

theorem Trail.map {S : β → β → Prop} {f : α → β} (h : Trail R l a b)
    (hRS : ∀ a b, R a b → S (f a) (f b)) : Trail S (l.map f) (f a) (f b) := by
  refine ⟨(List.isChain_map f).mpr (h.chain.imp hRS), ?_, ?_⟩
  · rw [List.head?_map, h.head, Option.map_some]
  · rw [List.getLast?_map, h.last, Option.map_some]

end History

/-! ## The pool -/

/-- The number of all workers, of those that are busy elsewhere, and of those that are idle. -/
structure Pool where
  total : ℕ
  busy : ℕ
  idle : ℕ
deriving DecidableEq, Repr

namespace Pool

/-- A busy worker is created, or becomes idle; idle ones are not used again. -/
inductive Move (s : Pool) : Pool → Prop
  | stayed : Move s s
  | created : Move s ⟨s.total + 1, s.busy + 1, s.idle⟩
  | released (busy : ℕ) (h : s.busy = busy + 1) : Move s ⟨s.total, busy, s.idle + 1⟩

/-- The largest number of busy workers. -/
def peak (history : List Pool) : ℕ := history.foldl (fun most s => max most s.busy) 0

theorem peak_concat (history : List Pool) (s : Pool) :
    peak (history ++ [s]) = max (peak history) s.busy := by
  unfold peak
  rw [List.foldl_concat]

/-- A worker is created only where none is idle. -/
def Needed (s t : Pool) : Prop := s.total < t.total → s.idle = 0

/-- What is known at the last state of a history. -/
structure Account (base : ℕ) (history : List Pool) (last : Pool) : Prop where
  total_eq : last.total = base + last.busy + last.idle
  peak_le : base + peak history ≤ last.total
  needed : history.IsChain Needed → last.total ≤ base + peak history
  wasted : ¬ history.IsChain Needed → 0 < last.idle ∧ base + peak history < last.total

theorem account_start (base : ℕ) : Account base [⟨base, 0, 0⟩] ⟨base, 0, 0⟩ where
  total_eq := rfl
  peak_le := Nat.le_refl base
  needed := fun _ => Nat.le_refl base
  wasted := fun h => absurd (.singleton _) h

theorem isChain_concat {α : Type*} {R : α → α → Prop} {before : List α} {a b : α} :
    (before ++ [a] ++ [b]).IsChain R ↔ (before ++ [a]).IsChain R ∧ R a b := by
  rw [List.isChain_append]
  simp

/-- A move either creates a busy worker, or keeps all workers and makes none busy. -/
theorem Move.created_or_kept {s t : Pool} (h : Move s t) :
    (t.total = s.total + 1 ∧ t.busy = s.busy + 1 ∧ t.idle = s.idle) ∨
      (t.total = s.total ∧ t.busy ≤ s.busy ∧ t.busy + t.idle = s.busy + s.idle) := by
  cases h with
  | stayed => exact .inr ⟨rfl, Nat.le_refl _, rfl⟩
  | created => exact .inl ⟨rfl, rfl, rfl⟩
  | released busy hbusy =>
    refine .inr ⟨rfl, ?_, ?_⟩
    · rw [hbusy]
      exact Nat.le_succ busy
    · rw [hbusy]
      exact Nat.add_right_comm busy s.idle 1

theorem Account.move {base : ℕ} {before : List Pool} {s t : Pool}
    (h : Account base (before ++ [s]) s) (hmove : Move s t) :
    Account base (before ++ [s] ++ [t]) t := by
  obtain ⟨htotal, hpeak, hneeded, hwasted⟩ := h
  have hchain : (before ++ [s] ++ [t]).IsChain Needed ↔
      (before ++ [s]).IsChain Needed ∧ Needed s t := isChain_concat
  have hpeak' := peak_concat (before ++ [s]) t
  rcases hmove.created_or_kept with ⟨hnew, hbusy, hidle⟩ | ⟨hkept, hbusy, hsum⟩
  · refine ⟨by omega, by omega, fun hyes => ?_, fun hno => ?_⟩
    · obtain ⟨hclean, hneed⟩ := hchain.mp hyes
      have hle := hneeded hclean
      have hzero : s.idle = 0 := hneed (by omega)
      omega
    · -- a worker was idle: since an earlier creation, or at this one
      have hpos : 0 < s.idle := by
        by_cases hclean : (before ++ [s]).IsChain Needed
        · exact Nat.pos_of_ne_zero fun hzero => hno (hchain.mpr ⟨hclean, fun _ => hzero⟩)
        · exact (hwasted hclean).1
      exact ⟨by omega, by omega⟩
  · have hneed : Needed s t := fun hlt => absurd hkept hlt.ne'
    refine ⟨by omega, by omega, fun hyes => ?_, fun hno => ?_⟩
    · have hle := hneeded (hchain.mp hyes).1
      omega
    · obtain ⟨hpos, hlt⟩ := hwasted fun hclean => hno (hchain.mpr ⟨hclean, hneed⟩)
      exact ⟨by omega, by omega⟩

theorem account_of_moves {base : ℕ} (before : List Pool) {last : Pool}
    (hstart : (before ++ [last]).head? = some ⟨base, 0, 0⟩)
    (hmoves : (before ++ [last]).IsChain Move) : Account base (before ++ [last]) last := by
  induction before using List.reverseRecOn generalizing last with
  | nil =>
    obtain rfl := Option.some.inj hstart
    exact account_start base
  | append_singleton before s ih =>
    obtain ⟨hbefore, hmove⟩ := isChain_concat.mp hmoves
    refine (ih ?_ hbefore).move hmove
    rwa [List.head?_append_of_ne_nil _ (by simp)] at hstart

/-- **The size of the pool is bounded by its peak exactly when every creation was needed.** -/
theorem total_le_peak_iff {base : ℕ} {history : List Pool} {last : Pool}
    (hmoves : Trail Move history ⟨base, 0, 0⟩ last) :
    last.total ≤ base + peak history ↔ history.IsChain Needed := by
  obtain ⟨before, rfl⟩ : ∃ before, history = before ++ [last] :=
    List.getLast?_eq_some_iff.mp hmoves.last
  have h := account_of_moves before hmoves.head hmoves.chain
  constructor
  · intro hle
    by_contra hno
    exact absurd (h.wasted hno).2 (Nat.not_lt.mpr hle)
  · exact h.needed

end Pool

end OsSimulator.Library
