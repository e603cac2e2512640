import Mathlib.Logic.Function.Basic
import Mathlib.Order.Basic
import Mathlib.Order.Nat

/-!
# A pager whose translations are never withdrawn

The two maps of a pager: where a page is translated to (`frameOf`) and which page a
frame holds (`pageAt`).  A pager that keeps them inverse to each other resolves every
page to its own frame.  Here a page is translated once, when it is loaded, and loading
another page into the frame later does not withdraw the translation.

Such a pager keeps one half of the agreement: a page that is in a frame is translated to
it (`Agrees`).  A page that has lost its frame stays translated to it (`Stale`), and is
never loaded again (`Stale.move`).  An access resolves a page to its own frame exactly
when the page is not stale (`Moves.resolves_iff`), and the stale pages are those that
were resident once and no longer are (`stale_iff_lost`).
-/

set_option autoImplicit false

namespace OsSimulator.Library

structure PagerView (α : Type*) where
  frameOf : α → Option ℕ
  pageAt : ℕ → Option α

namespace PagerView

variable {α : Type*} [DecidableEq α]

/-- Page `p` is loaded into frame `f`, over whatever was there. -/
def load (v : PagerView α) (p : α) (f : ℕ) : PagerView α where
  frameOf := Function.update v.frameOf p (some f)
  pageAt := Function.update v.pageAt f (some p)

/-- One access: a translated page is resolved as it is, an untranslated one is loaded,
and a failed access changes nothing.  The last argument is the page and the frame it is
resolved to. -/
inductive Moves (v : PagerView α) : PagerView α → Option (α × ℕ) → Prop where
  | resolve {p : α} {f : ℕ} (h : v.frameOf p = some f) : Moves v v (some (p, f))
  | fault {p : α} (f : ℕ) (h : v.frameOf p = none) : Moves v (v.load p f) (some (p, f))
  | fail : Moves v v none

def Resident (v : PagerView α) (p : α) : Prop := ∃ f, v.pageAt f = some p

/-- The page is translated to a frame that holds another page or none. -/
def Stale (v : PagerView α) (p : α) : Prop := ∃ f, v.frameOf p = some f ∧ v.pageAt f ≠ some p

/-- A page in a frame is translated to it, and a translation leads to a used frame. -/
structure Agrees (v : PagerView α) : Prop where
  translated : ∀ {f p}, v.pageAt f = some p → v.frameOf p = some f
  backed : ∀ {p f}, v.frameOf p = some f → v.pageAt f ≠ none

section Moves

variable {v v' : PagerView α} {p : α} {f : ℕ}

omit [DecidableEq α] in
/-- A translated page is resident in the frame it is translated to, or nowhere. -/
theorem Agrees.resident_iff (hv : Agrees v) (hp : v.frameOf p = some f) :
    v.Resident p ↔ v.pageAt f = some p := by
  constructor
  · rintro ⟨g, hg⟩
    have hfg : f = g := Option.some.inj (hp.symm.trans (hv.translated hg))
    rw [hfg]
    exact hg
  · intro hf
    exact ⟨f, hf⟩

omit [DecidableEq α] in
theorem Agrees.stale_iff (hv : Agrees v) : v.Stale p ↔ v.frameOf p ≠ none ∧ ¬ v.Resident p := by
  constructor
  · rintro ⟨f, hp, hne⟩
    rw [hv.resident_iff hp, hp]
    exact ⟨by simp, hne⟩
  · rintro ⟨hp, hres⟩
    obtain ⟨f, hf⟩ := Option.ne_none_iff_exists'.mp hp
    exact ⟨f, hf, fun hat => hres ⟨f, hat⟩⟩

theorem load_frameOf_self : (v.load p f).frameOf p = some f := Function.update_self ..

theorem load_pageAt_self : (v.load p f).pageAt f = some p := Function.update_self ..

theorem load_frameOf_of_ne {q : α} (hq : q ≠ p) : (v.load p f).frameOf q = v.frameOf q :=
  Function.update_of_ne hq ..

theorem load_pageAt_of_ne {g : ℕ} (hg : g ≠ f) : (v.load p f).pageAt g = v.pageAt g :=
  Function.update_of_ne hg ..

/-- **A move keeps the agreement.** -/
theorem Agrees.move (hv : Agrees v) {r : Option (α × ℕ)} (hm : Moves v v' r) : Agrees v' := by
  cases hm with
  | resolve h => exact hv
  | fail => exact hv
  | @fault p f h =>
    constructor
    · intro g q hq
      by_cases hgf : g = f
      · rw [hgf, load_pageAt_self] at hq
        rw [← Option.some.inj hq, hgf]
        exact load_frameOf_self
      · rw [load_pageAt_of_ne hgf] at hq
        have hqt := hv.translated hq
        have hqp : q ≠ p := by
          rintro rfl
          rw [h] at hqt
          cases hqt
        rw [load_frameOf_of_ne hqp]
        exact hqt
    · intro q g hq
      by_cases hgf : g = f
      · rw [hgf, load_pageAt_self]
        simp
      · have hqp : q ≠ p := by
          rintro rfl
          rw [load_frameOf_self] at hq
          exact hgf (Option.some.inj hq).symm
        rw [load_frameOf_of_ne hqp] at hq
        rw [load_pageAt_of_ne hgf]
        exact hv.backed hq

/-- A translation stays what it is. -/
theorem Moves.frameOf_mono {r : Option (α × ℕ)} (hm : Moves v v' r) (hp : v.frameOf p = some f) :
    v'.frameOf p = some f := by
  cases hm with
  | resolve h => exact hp
  | fail => exact hp
  | @fault q g h =>
    have hpq : p ≠ q := by
      rintro rfl
      rw [h] at hp
      cases hp
    rw [load_frameOf_of_ne hpq]
    exact hp

/-- A stale page stays stale: it is translated, so it is not loaded again. -/
theorem Stale.move (hs : v.Stale p) {r : Option (α × ℕ)} (hm : Moves v v' r) : v'.Stale p := by
  obtain ⟨f, hp, hne⟩ := hs
  refine ⟨f, hm.frameOf_mono hp, ?_⟩
  cases hm with
  | resolve h => exact hne
  | fail => exact hne
  | @fault q g h =>
    by_cases hfg : f = g
    · rw [hfg, load_pageAt_self]
      intro hqp
      rw [Option.some.inj hqp, hp] at h
      cases h
    · rw [load_pageAt_of_ne hfg]
      exact hne

/-- **An access resolves a page to its own frame exactly when the page is not stale.** -/
theorem Moves.resolves_iff (hm : Moves v v' (some (p, f))) : v'.pageAt f = some p ↔ ¬ v.Stale p := by
  cases hm with
  | resolve h =>
    constructor
    · rintro hat ⟨g, hg, hne⟩
      rw [h] at hg
      exact hne (Option.some.inj hg ▸ hat)
    · intro hstale
      by_contra hne
      exact hstale ⟨f, h, hne⟩
  | fault f h =>
    constructor
    · rintro - ⟨g, hg, -⟩
      rw [h] at hg
      cases hg
    · intro _
      exact load_pageAt_self

end Moves

/-! ## Runs -/

/-- A sequence of views, each a move from the one before. -/
def Trace (v : ℕ → PagerView α) (n : ℕ) : Prop := ∀ k < n, ∃ r, Moves (v k) (v (k + 1)) r

variable {v : ℕ → PagerView α} {n : ℕ}

theorem Trace.agrees (ht : Trace v n) (h0 : Agrees (v 0)) : ∀ k ≤ n, Agrees (v k) := by
  intro k hk
  induction k with
  | zero => exact h0
  | succ k ih =>
    obtain ⟨r, hm⟩ := ht k (by omega)
    exact (ih (by omega)).move hm

theorem Trace.frameOf_mono (ht : Trace v n) {p : α} {f j : ℕ} (hp : (v j).frameOf p = some f) :
    ∀ k, j ≤ k → k ≤ n → (v k).frameOf p = some f := by
  intro k hjk
  induction k, hjk using Nat.le_induction with
  | base => exact fun _ => hp
  | succ k hjk ih =>
    intro hk
    obtain ⟨r, hm⟩ := ht k (by omega)
    exact hm.frameOf_mono (ih (by omega))

/-- A page that is translated after a run from an empty pager was resident in it. -/
theorem Trace.exists_resident (ht : Trace v n) (h0 : ∀ p, (v 0).frameOf p = none) {p : α} :
    ∀ k ≤ n, (v k).frameOf p ≠ none → ∃ j ≤ k, (v j).Resident p := by
  intro k hk
  induction k with
  | zero => exact fun hp => absurd (h0 p) hp
  | succ k ih =>
    intro hp
    by_cases hold : (v k).frameOf p = none
    · obtain ⟨r, hm⟩ := ht k (by omega)
      generalize hv' : v (k + 1) = v' at *
      cases hm with
      | resolve h => exact absurd hold hp
      | fail => exact absurd hold hp
      | @fault q f h =>
        have hpq : p = q := by
          by_contra hne
          rw [load_frameOf_of_ne hne] at hp
          exact hp hold
        refine ⟨k + 1, le_rfl, f, ?_⟩
        rw [hv', hpq]
        exact load_pageAt_self
    · obtain ⟨j, hj, hres⟩ := ih (by omega) hold
      exact ⟨j, by omega, hres⟩

/-- **Stale pages are evicted pages**: resident at some point of the run and no longer. -/
theorem stale_iff_lost (ht : Trace v n) (hempty : ∀ p, (v 0).frameOf p = none)
    (h0 : Agrees (v 0)) {p : α} :
    (v n).Stale p ↔ ∃ j ≤ n, (v j).Resident p ∧ ¬ (v n).Resident p := by
  rw [(ht.agrees h0 n le_rfl).stale_iff]
  constructor
  · rintro ⟨hp, hres⟩
    obtain ⟨j, hj, hresj⟩ := ht.exists_resident hempty n le_rfl hp
    exact ⟨j, hj, hresj, hres⟩
  · rintro ⟨j, hj, ⟨f, hf⟩, hres⟩
    have htrans := ht.frameOf_mono ((ht.agrees h0 j hj).translated hf) n hj le_rfl
    exact ⟨by rw [htrans]; simp, hres⟩

end PagerView

end OsSimulator.Library
