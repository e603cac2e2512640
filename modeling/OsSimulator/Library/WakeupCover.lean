import Mathlib.Data.Finset.Card

/-!
# Signals that cover the room

Some members wait in a queue for room, and some have been woken and have not looked yet.  The
queue is covered when nobody waits in vain: if it is not empty, at least as many members are
awake as there is room (`Covers`).

Taking a place costs one member that is awake and one place; a signal takes one member from the
queue and makes up for one new place.  These are the only rules needed, whoever takes the place
and in whatever order the members look.
-/

set_option autoImplicit false

namespace OsSimulator.Library

variable {κ T : Type*} {queue : List κ} {room : ℕ} {awake awake' : Set T}

/-- If the queue is not empty, at least `room` members are awake. -/
def Covers (queue : List κ) (room : ℕ) (awake : Set T) : Prop :=
  queue ≠ [] → ∃ S : Finset T, (∀ t ∈ S, t ∈ awake) ∧ room ≤ S.card

theorem covers_zero (queue : List κ) (awake : Set T) : Covers queue 0 awake :=
  fun _ => ⟨∅, fun t ht => absurd ht (Finset.notMem_empty t), Nat.zero_le _⟩

theorem covers_nil (room : ℕ) (awake : Set T) : Covers ([] : List κ) room awake :=
  fun h => absurd rfl h

/-- Fewer wait, there is less room, and more are awake. -/
theorem Covers.weaken (h : Covers queue room awake) {queue' : List κ} {room' : ℕ}
    (hqueue : queue' ≠ [] → queue ≠ []) (hroom : room' ≤ room) (hsub : ∀ t ∈ awake, t ∈ awake') :
    Covers queue' room' awake' := by
  intro hne
  obtain ⟨S, hS, hcard⟩ := h (hqueue hne)
  exact ⟨S, fun t ht => hsub t (hS t ht), Nat.le_trans hroom hcard⟩

/-- One member takes a place; only it may fall asleep. -/
theorem Covers.take [DecidableEq T] (h : Covers queue room awake) (t : T)
    (hsub : ∀ u ∈ awake, u ≠ t → u ∈ awake') : Covers queue (room - 1) awake' := by
  intro hne
  obtain ⟨S, hS, hcard⟩ := h hne
  refine ⟨S.erase t, fun u hu => ?_, ?_⟩
  · obtain ⟨hut, hu⟩ := Finset.mem_erase.mp hu
    exact hsub u (hS u hu) hut
  · have := Finset.pred_card_le_card_erase (s := S) (a := t)
    omega

/-- A member `u` is taken from the queue and woken, for one new place. -/
theorem Covers.signal [DecidableEq T] (h : Covers queue room awake) (hne : queue ≠ [])
    {queue' : List κ} {u : T} (hasleep : u ∉ awake) (hu : u ∈ awake')
    (hsub : ∀ t ∈ awake, t ∈ awake') :
    Covers queue' (room + 1) awake' := by
  intro _
  obtain ⟨S, hS, hcard⟩ := h hne
  refine ⟨insert u S, fun t ht => ?_, ?_⟩
  · rcases Finset.mem_insert.mp ht with rfl | ht
    · exact hu
    · exact hsub t (hS t ht)
  · rw [Finset.card_insert_of_notMem fun hmem => hasleep (hS u hmem)]
    omega

end OsSimulator.Library
