import Mathlib.Data.List.Nodup
import Mathlib.Order.BooleanAlgebra.Set

/-!
# Tokens in containers

A system that hands tokens from container to container without losing or copying one.
`hold c` is the content of container `c`, in order, and `ok c x` is what is known of a token
`x` while `c` holds it.  `Custody hold live ok` says that every token of `live` is held by
exactly one container, at one position of it, that no other token is held, and that all that
is known of the tokens is true.

A hand-over of one token is a `take` followed by a `put`; a batch that changes its container
is a `shift`.  What is known may change on the way (`mono`).
-/

set_option autoImplicit false

namespace OsSimulator.Library

structure Custody {κ τ : Type} (hold : κ → List τ) (live : Set τ) (ok : κ → τ → Prop) : Prop where
  mem_iff : ∀ x, x ∈ live ↔ ∃ c, x ∈ hold c
  unique : ∀ x c d, x ∈ hold c → x ∈ hold d → c = d
  nodup : ∀ c, (hold c).Nodup
  known : ∀ c x, x ∈ hold c → ok c x

namespace Custody

variable {κ τ : Type} {hold hold' : κ → List τ} {live : Set τ} {ok ok' : κ → τ → Prop}
  {c d : κ} {x : τ}

theorem mem_live (h : Custody hold live ok) (hx : x ∈ hold c) : x ∈ live :=
  (h.mem_iff x).mpr ⟨c, hx⟩

theorem mono (h : Custody hold live ok) (hok : ∀ e y, y ∈ hold e → ok e y → ok' e y) :
    Custody hold live ok' :=
  { h with known := fun e y hy => hok e y hy (h.known e y hy) }

/-- What is known of one token changes, and the token stays in its container. -/
theorem revise (h : Custody hold live ok) (hc : x ∈ hold c)
    (hok : ∀ e y, y ≠ x → y ∈ hold e → ok e y → ok' e y) (hx : ok' c x) :
    Custody hold live ok' := by
  refine h.mono fun e y hy hknown => ?_
  by_cases hyx : y = x
  · subst hyx
    rwa [h.unique y e c hy hc]
  · exact hok e y hyx hy hknown

/-- One token leaves its container. -/
theorem take (h : Custody hold live ok) (hc : (hold c).Perm (x :: hold' c))
    (ho : ∀ e, e ≠ c → hold' e = hold e) : Custody hold' (live \ {x}) ok := by
  have hnodup : (x :: hold' c).Nodup := hc.nodup_iff.mp (h.nodup c)
  have hsub : ∀ e y, y ∈ hold' e → y ∈ hold e := by
    intro e y hy
    by_cases he : e = c
    · subst he
      exact hc.mem_iff.mpr (List.mem_cons_of_mem x hy)
    · rwa [ho e he] at hy
  have hgone : ∀ e, x ∉ hold' e := by
    intro e hx
    obtain rfl := h.unique x e c (hsub e x hx) (hc.mem_iff.mpr List.mem_cons_self)
    exact (List.nodup_cons.mp hnodup).1 hx
  refine ⟨fun y => ⟨?_, ?_⟩, ?_, ?_, ?_⟩
  · rintro ⟨hy, hne⟩
    obtain ⟨e, he⟩ := (h.mem_iff y).mp hy
    by_cases hec : e = c
    · subst hec
      rcases List.mem_cons.mp (hc.mem_iff.mp he) with rfl | he
      · exact absurd rfl hne
      · exact ⟨e, he⟩
    · exact ⟨e, by rwa [ho e hec]⟩
  · rintro ⟨e, he⟩
    refine ⟨h.mem_live (hsub e y he), ?_⟩
    rintro rfl
    exact hgone e he
  · exact fun y e f he hf => h.unique y e f (hsub e y he) (hsub f y hf)
  · intro e
    by_cases he : e = c
    · subst he
      exact (List.nodup_cons.mp hnodup).2
    · rw [ho e he]
      exact h.nodup e
  · exact fun e y hy => h.known e y (hsub e y hy)

/-- A token that no container holds enters one. -/
theorem put (h : Custody hold live ok) (hx : x ∉ live) (hd : (hold' d).Perm (x :: hold d))
    (ho : ∀ e, e ≠ d → hold' e = hold e) (hok : ok d x) : Custody hold' (insert x live) ok := by
  have hmem : ∀ e y, y ∈ hold' e ↔ y ∈ hold e ∨ y = x ∧ e = d := by
    intro e y
    by_cases he : e = d
    · subst he
      simp [hd.mem_iff, or_comm]
    · simp [ho e he, he]
  have hout : ∀ e, x ∉ hold e := fun e he => hx (h.mem_live he)
  refine ⟨fun y => ?_, ?_, ?_, ?_⟩
  · rw [Set.mem_insert_iff, h.mem_iff]
    simp only [hmem]
    constructor
    · rintro (rfl | ⟨e, he⟩)
      · exact ⟨d, .inr ⟨rfl, rfl⟩⟩
      · exact ⟨e, .inl he⟩
    · rintro ⟨e, he | ⟨rfl, -⟩⟩
      · exact .inr ⟨e, he⟩
      · exact .inl rfl
  · intro y e f he hf
    rcases (hmem e y).mp he with he | ⟨rfl, rfl⟩ <;> rcases (hmem f y).mp hf with hf | ⟨hy, rfl⟩
    · exact h.unique y e f he hf
    · exact absurd (hy ▸ he) (hout e)
    · exact absurd hf (hout f)
    · rfl
  · intro e
    by_cases he : e = d
    · subst he
      exact hd.nodup_iff.mpr (List.nodup_cons.mpr ⟨hout e, h.nodup e⟩)
    · rw [ho e he]
      exact h.nodup e
  · intro e y hy
    rcases (hmem e y).mp hy with hy | ⟨rfl, rfl⟩
    · exact h.known e y hy
    · exact hok

/-- Where the tokens are after a batch has changed its container. -/
theorem mem_shifted (h : Custody hold live ok) (hne : c ≠ d) {xs : List τ}
    (hc : (hold c).Perm (xs ++ hold' c)) (hd : (hold' d).Perm (xs ++ hold d))
    (ho : ∀ e, e ≠ c → e ≠ d → hold' e = hold e) (e : κ) (y : τ) :
    y ∈ hold' e ↔ y ∈ hold e ∧ (e = c → y ∉ xs) ∨ y ∈ xs ∧ e = d := by
  by_cases hec : e = c
  · subst hec
    have hdisj := List.disjoint_of_nodup_append (hc.nodup_iff.mp (h.nodup e))
    simp only [hc.mem_iff, List.mem_append, hne, and_false, or_false, forall_const]
    exact ⟨fun hy => ⟨.inr hy, fun hx => hdisj hx hy⟩, fun hy => hy.1.resolve_left hy.2⟩
  · by_cases hed : e = d
    · subst hed
      simp [hd.mem_iff, hec, or_comm]
    · simp [ho e hec hed, hec, hed]

/-- A batch changes its container. -/
theorem shift (h : Custody hold live ok) (hne : c ≠ d) (xs : List τ)
    (hc : (hold c).Perm (xs ++ hold' c)) (hd : (hold' d).Perm (xs ++ hold d))
    (ho : ∀ e, e ≠ c → e ≠ d → hold' e = hold e) (hok : ∀ x, ok c x → ok d x) :
    Custody hold' live ok := by
  have hfrom : ∀ y ∈ xs, y ∈ hold c := fun y hy => hc.mem_iff.mpr (List.mem_append_left _ hy)
  have hnodup : (xs ++ hold' c).Nodup := hc.nodup_iff.mp (h.nodup c)
  have hmem := mem_shifted h hne hc hd ho
  refine ⟨fun y => ?_, ?_, ?_, ?_⟩
  · rw [h.mem_iff]
    simp only [hmem]
    constructor
    · rintro ⟨e, he⟩
      by_cases hy : e = c ∧ y ∈ xs
      · exact ⟨d, .inr ⟨hy.2, rfl⟩⟩
      · exact ⟨e, .inl ⟨he, fun hec hx => hy ⟨hec, hx⟩⟩⟩
    · rintro ⟨e, he | ⟨hy, -⟩⟩
      · exact ⟨e, he.1⟩
      · exact ⟨c, hfrom y hy⟩
  · intro y e f he hf
    rcases (hmem e y).mp he with ⟨he, hec⟩ | ⟨hy, rfl⟩ <;>
      rcases (hmem f y).mp hf with ⟨hf, hfc⟩ | ⟨hy', rfl⟩
    · exact h.unique y e f he hf
    · exact absurd hy' (hec (h.unique y e c he (hfrom y hy')))
    · exact absurd hy (hfc (h.unique y f c hf (hfrom y hy)))
    · rfl
  · intro e
    by_cases hec : e = c
    · subst hec
      exact (List.nodup_append.mp hnodup).2.1
    · by_cases hed : e = d
      · subst hed
        refine hd.nodup_iff.mpr (List.nodup_append.mpr
          ⟨(List.nodup_append.mp hnodup).1, h.nodup e, ?_⟩)
        rintro y hy _ hy' rfl
        exact hne (h.unique y c e (hfrom y hy) hy')
      · rw [ho e hec hed]
        exact h.nodup e
  · intro e y hy
    rcases (hmem e y).mp hy with hy | ⟨hy, rfl⟩
    · exact h.known e y hy.1
    · exact hok y (h.known c y (hfrom y hy))

/-- **Hand-over**: one token changes its container, and what is known of the others stays
true. -/
theorem handOver (h : Custody hold live ok) (hne : c ≠ d) (hc : (hold c).Perm (x :: hold' c))
    (hd : (hold' d).Perm (x :: hold d)) (ho : ∀ e, e ≠ c → e ≠ d → hold' e = hold e)
    (hok : ∀ e y, y ≠ x → y ∈ hold e → ok e y → ok' e y) (hx : ok' d x) :
    Custody hold' live ok' := by
  classical
  have hlive : x ∈ live := h.mem_live (hc.mem_iff.mpr List.mem_cons_self)
  have hsub : ∀ e y, y ∈ Function.update hold c (hold' c) e → y ∈ hold e := by
    intro e y hy
    by_cases hec : e = c
    · subst hec
      exact hc.mem_iff.mpr (List.mem_cons_of_mem x (by simpa using hy))
    · simpa [hec] using hy
  have htaken : Custody (Function.update hold c (hold' c)) (live \ {x}) ok :=
    h.take (c := c) (by simpa using hc) fun e he => by simp [he]
  have hothers : Custody (Function.update hold c (hold' c)) (live \ {x}) ok' :=
    htaken.mono fun e y hy => hok e y (htaken.mem_live hy).2 (hsub e y hy)
  have hput : Custody hold' (insert x (live \ {x})) ok' := by
    refine hothers.put (d := d) (by simp) (by simpa [hne.symm] using hd) (fun e he => ?_) hx
    by_cases hec : e = c
    · simp [hec]
    · simp [hec, ho e hec he]
  rwa [Set.insert_sdiff_singleton, Set.insert_eq_of_mem hlive] at hput

end Custody

end OsSimulator.Library
