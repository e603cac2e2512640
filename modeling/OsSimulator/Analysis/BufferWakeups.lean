import OsSimulator.Analysis.BufferStream
import OsSimulator.Library.WakeupCover

/-!
# The bounded buffer misses no wake-up

A signal wakes one call, and a newcomer may take the place before that call looks.  What is kept
is a count (`OsSimulator.Library.Covers`): while some call of one side waits in a queue, at least as
many calls of that side have been signalled and have not looked as there is room for.  A call
that takes a place lowers the room by one and is at most one of the signalled; the signal it
sends makes up for the room it leaves to the other side; and a call waits only when there is no
room at all.
-/

set_option autoImplicit false

namespace OsSimulator.Analysis

open Model Interface Library

section Wakeups

variable {T : Type*}

/-! ## The specification -/

/-- While a call waits for room that is there, enough calls of its side are on their way. -/
structure NoMissedWakeup (capacity : ℕ) (call : T → BufferCall) (s : BufferSystem T) : Prop where
  puts : ∀ t item, call t = .put item → Waiting s t → s.buffer.length < capacity →
    ∃ S : Finset T, (∀ u ∈ S, (∃ item, call u = .put item) ∧ Signalled s u) ∧
      capacity - s.buffer.length ≤ S.card
  gets : ∀ t, call t = .get → Waiting s t → s.buffer ≠ [] →
    ∃ S : Finset T, (∀ u ∈ S, call u = .get ∧ Signalled s u) ∧ s.buffer.length ≤ S.card

/-! ## The count -/

/-- The calls of one side that were signalled and have not looked. -/
def awake (call : T → BufferCall) (s : BufferSystem T) (cv : CondName) : Set T :=
  { u | condOf (call u) = cv ∧ Signalled s u }

/-- Each queue is covered, with the given room for each side. -/
def QueuesCovered (call : T → BufferCall) (room : CondName → ℕ) (s : BufferSystem T) : Prop :=
  ∀ cv, Covers (s.waiters cv) (room cv) (awake call s cv)

variable [DecidableEq T] {capacity : ℕ} {call : T → BufferCall} {cv : CondName} {t : T}
  {item : Option Int64} {s s' : BufferSystem T} {new : List (BufferEvent T)}
  {room room' : CondName → ℕ}

/-- When `t` returns, the other calls that were signalled still are. -/
theorem awake_of_finishes (h : Finishes call cv t item s s') {c : CondName} {u : T}
    (hu : u ∈ awake call s c) (hut : u ≠ t) : u ∈ awake call s' c := by
  obtain ⟨hcond, ch, hparked, hclosed⟩ := hu
  refine ⟨hcond, ch, ?_, h.closed_mono hclosed⟩
  rw [h.pc_eq, Function.update_of_ne hut, hparked]

/-- The side of `t` has one place less, and at most `t` is no longer awake. -/
theorem QueuesCovered.taken (h : QueuesCovered call room s) {c : CondName} (hc : c ≠ cv)
    (hfin : Finishes call cv t item s s') :
    Covers (s'.waiters c) (room c - 1) (awake call s' c) := by
  rw [hfin.waiters_of_ne hc]
  exact (h c).take t fun u hu hut => awake_of_finishes hfin hu hut

/-- The side that is signalled has one place more, and one more call is awake if one waits. -/
theorem QueuesCovered.signalled (h : QueuesCovered call room s)
    (hother : condOf (call t) ≠ cv) (hfin : Finishes call cv t item s s') :
    Covers (s'.waiters cv) (room cv + 1) (awake call s' cv) := by
  have hne : ∀ {u}, condOf (call u) = cv → u ≠ t := by
    rintro u hu rfl
    exact hother hu
  have hkeep : ∀ u ∈ awake call s cv, u ∈ awake call s' cv :=
    fun u hu => awake_of_finishes hfin hu (hne hu.1)
  cases hfin with
  | alone hempty =>
    show Covers (s.waiters cv) _ _
    rw [hempty]
    exact covers_nil _ _
  | @wakes u ch rest hqueue hopen hu hparked =>
    have hcovers := h cv
    rw [hqueue] at hcovers
    have hasleep : u ∉ awake call s cv := by
      rintro ⟨-, ch', hparked', hclosed⟩
      rw [hparked] at hparked'
      exact hopen (BufferPc.parked.inj hparked' ▸ hclosed)
    show Covers (Function.update s.waiters cv rest cv) _ _
    rw [Function.update_self]
    refine hcovers.signal (List.cons_ne_nil _ _) hasleep ⟨hu, ch, ?_, Finset.mem_insert_self ..⟩
      hkeep
    exact (Function.update_of_ne (hne hu) ..).trans hparked

/-- A call that waits finds no room on its side, and was not awake on the other. -/
theorem QueuesCovered.waits (h : QueuesCovered call room s)
    (hcond : condOf (call t) = cv) (hroom : room cv = 0) :
    QueuesCovered call room (s.wait cv t) := by
  intro c
  by_cases hc : c = cv
  · rw [hc, hroom]
    exact covers_zero _ _
  · rw [wait_waiters, Function.update_of_ne hc]
    refine (h c).weaken id (Nat.le_refl _) ?_
    rintro u ⟨hu, ch, hparked, hclosed⟩
    have hut : u ≠ t := by
      rintro rfl
      exact hc (hu.symm.trans hcond)
    exact ⟨hu, ch, by rw [wait_pc, Function.update_of_ne hut, hparked], hclosed⟩

/-- A `Put` takes a free place and leaves an item, a `Get` the other way round. -/
theorem QueuesCovered.finishes (h : QueuesCovered call room s)
    (hother : condOf (call t) ≠ cv) (hfin : Finishes call cv t item s s')
    (hroom : ∀ c, room' c = if c = cv then room c + 1 else room c - 1) :
    QueuesCovered call room' s' := by
  intro c
  rw [hroom c]
  by_cases hc : c = cv
  · rw [if_pos hc, hc]
    exact h.signalled hother hfin
  · rw [if_neg hc]
    exact h.taken hc hfin

/-- **Every move keeps the queues covered.** -/
theorem QueuesCovered.move (h : QueuesCovered call (roomFor s.toBoundedBuffer) s)
    (hbound : s.buffer.length ≤ s.capacity) (hmove : BufferMove call t s s' new) :
    QueuesCovered call (roomFor s'.toBoundedBuffer) s' := by
  cases hmove with
  | stays => exact h
  | waits hcond _ hroom => exact h.waits hcond hroom
  | @puts _ item hcall _ _ hfin =>
    have h' : QueuesCovered call (roomFor s.toBoundedBuffer)
        { s with buffer := s.buffer ++ [item] } := h
    refine h'.finishes (by simp [hcall, condOf]) hfin fun c => ?_
    rw [hfin.buffer_eq]
    cases c with
    | notFull => simp [roomFor, Nat.sub_add_eq]
    | notEmpty => simp [roomFor]
  | @gets _ item rest hcall _ hbuffer hfin =>
    have h' : QueuesCovered call (roomFor s.toBoundedBuffer) { s with buffer := rest } := h
    refine h'.finishes (by simp [hcall, condOf]) hfin fun c => ?_
    rw [hbuffer, List.length_cons] at hbound
    rw [hfin.buffer_eq]
    cases c with
    | notFull =>
      simp only [roomFor, hbuffer, List.length_cons, if_true]
      omega
    | notEmpty => simp [roomFor, hbuffer]

omit [DecidableEq T] in
/-- A waiting call is in the queue of its side, so the queue is covered. -/
theorem QueuesCovered.of_waiting (h : QueuesCovered call (roomFor s.toBoundedBuffer) s)
    (hok : ChannelsOk call s) (hcond : condOf (call t) = cv) (hwaiting : Waiting s t) :
    ∃ S : Finset T, (∀ u ∈ S, condOf (call u) = cv ∧ Signalled s u) ∧
      roomFor s.toBoundedBuffer cv ≤ S.card := by
  obtain ⟨ch, hparked, hopen⟩ := hwaiting
  have hmem : ch ∈ s.waiters cv := (hok.queued cv ch).mpr ⟨hopen, t, hcond, hparked⟩
  exact h cv (List.ne_nil_of_mem hmem)

theorem condOf_eq_notFull_iff {c : BufferCall} : condOf c = .notFull ↔ ∃ item, c = .put item := by
  cases c <;> simp [condOf]

theorem condOf_eq_notEmpty_iff {c : BufferCall} : condOf c = .notEmpty ↔ c = .get := by
  cases c <;> simp [condOf]

/-! ## Runs -/

theorem covered_run (capacity : ℕ) (call : T → BufferCall) (schedule : List T) :
    ChannelsOk call (runBuffer capacity call schedule).1 ∧
      DeliveryInv capacity call (runBuffer capacity call schedule).1
        (runBuffer capacity call schedule).2 ∧
      QueuesCovered call (roomFor (runBuffer capacity call schedule).1.toBoundedBuffer)
        (runBuffer capacity call schedule).1 := by
  refine runBuffer_induction
    (P := fun s events =>
      DeliveryInv capacity call s events ∧ QueuesCovered call (roomFor s.toBoundedBuffer) s)
    ⟨deliveryInv_new capacity call, fun _ => covers_nil _ _⟩ ?_ schedule
  intro t s s' events new _ h hmove
  obtain ⟨hinv, hcovered⟩ := h
  have hbound : s.buffer.length ≤ s.capacity := hinv.capacity_eq ▸ hinv.law.bound
  exact ⟨hinv.move hmove, hcovered.move hbound hmove⟩

/-- **The bounded buffer misses no wake-up**, for any calls in any interleaving.
SOURCE: pkg/concurrency/condvar.go:25-52, 86-114 -/
theorem buffer_no_missed_wakeup (capacity : ℕ) (call : T → BufferCall) (schedule : List T) :
    NoMissedWakeup capacity call (runBuffer capacity call schedule).1 := by
  obtain ⟨hok, hinv, hcovered⟩ := covered_run capacity call schedule
  have hcapacity := hinv.capacity_eq
  generalize (runBuffer capacity call schedule).1 = s at *
  constructor
  · intro t item hcall hwaiting _
    have hcond := condOf_eq_notFull_iff.mpr ⟨item, hcall⟩
    obtain ⟨S, hS, hcard⟩ := hcovered.of_waiting hok hcond hwaiting
    refine ⟨S, fun u hu => ⟨condOf_eq_notFull_iff.mp (hS u hu).1, (hS u hu).2⟩, ?_⟩
    rw [← hcapacity]
    exact hcard
  · intro t hcall hwaiting _
    have hcond := condOf_eq_notEmpty_iff.mpr hcall
    obtain ⟨S, hS, hcard⟩ := hcovered.of_waiting hok hcond hwaiting
    exact ⟨S, fun u hu => ⟨condOf_eq_notEmpty_iff.mp (hS u hu).1, (hS u hu).2⟩, hcard⟩

/-- Three calls of `Put` and one of `Get`, on a buffer of one place. -/
def threePutsOneGet : Fin 4 → BufferCall
  | 0 => .put 7
  | 1 => .put 8
  | 2 => .put 9
  | 3 => .get

/-- The `Get` has taken the only item and signalled the first of two waiting `Put`s: the other
still waits although there is room. -/
theorem buffer_no_missed_wakeup_threePutsOneGet :
    let s := (runBuffer 1 threePutsOneGet [0, 1, 2, 3]).1
    Waiting s 2 ∧ s.buffer.length < 1 ∧
      ∃ S : Finset (Fin 4), (∀ u ∈ S, (∃ item, threePutsOneGet u = .put item) ∧ Signalled s u) ∧
        1 - s.buffer.length ≤ S.card := by
  have hwaiting : Waiting (runBuffer 1 threePutsOneGet [0, 1, 2, 3]).1 2 :=
    ⟨1, by decide, by decide⟩
  exact ⟨hwaiting, by decide,
    (buffer_no_missed_wakeup 1 threePutsOneGet [0, 1, 2, 3]).puts 2 9 rfl hwaiting (by decide)⟩

end Wakeups

end OsSimulator.Analysis
