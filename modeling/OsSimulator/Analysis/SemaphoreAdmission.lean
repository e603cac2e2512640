import OsSimulator.Interface.SemaphoreMoves
import OsSimulator.Library.Census
import Mathlib.Algebra.Group.Nat.Defs
import Mathlib.Data.Int.Order.Basic
import Mathlib.Data.List.Infix

/-!
# The semaphore admits exactly what was paid for

`SemaphoreBooks` keeps the accounts of a semaphore: its value is the initial value less the `Wait`s
and plus the `Signal`s that have passed their critical sections, the queue is as long as the value
is below zero, and callers leave the queue in the order in which they joined it.  A caller that was
taken from the queue counts as admitted although it has not run yet, so the number of admitted
callers is what the accounts say at every moment.

The value is a machine integer; the accounts are right as long as it does not wrap around
(`NeverWraps`).
-/

set_option autoImplicit false

namespace OsSimulator.Analysis

open Model Interface Library

section Admission

variable {T : Type*}

/-! ## The specification -/

/-- The initial value, less the `Wait`s and plus the `Signal`s so far. -/
def balance (initialValue : Int64) (events : List (SemaphoreEvent T)) : ℤ :=
  initialValue.toInt - waitCount events + signalCount events

/-- The semaphore has admitted what was paid for. -/
structure PaidFor (initialValue : Int64) (call : T → SemaphoreCall) (s : SemaphoreSystem T)
    (events : List (SemaphoreEvent T)) : Prop where
  waited : HasCount (fun t => PassedWait call t (s.pc t)) (waitCount events)
  signalled : HasCount (fun t => PassedSignal call t (s.pc t)) (signalCount events)
  value_eq : s.value.toInt = balance initialValue events
  queue_eq : (s.waiters.length : ℤ) = max 0 (-s.value.toInt)
  admitted : ∃ n, HasCount (Admitted call s) n ∧
    (n : ℤ) = min (waitCount events : ℤ) (initialValue.toInt + signalCount events)
  /-- callers are released in the order in which they were queued -/
  order : releasedCalls events ++ s.waiters = enqueuedCalls events
  no_panic : ∀ t, s.pc t ≠ .panicked

/-- At most one caller is between `Wait` and `Signal`. -/
def OneInside (s : SemaphoreSystem T) : Prop :=
  ∀ t u, s.pc t = .inside → s.pc u = .inside → t = u

def FitsInt (x : ℤ) : Prop := Int64.minValue.toInt ≤ x ∧ x ≤ Int64.maxValue.toInt

variable [DecidableEq T]

/-- The balance is a machine integer at every point of the run. -/
def NeverWraps (initialValue : Int64) (call : T → SemaphoreCall) (schedule : List T) : Prop :=
  ∀ done, done <+: schedule → FitsInt (balance initialValue (runSemaphore initialValue call done).2)

/-! ## The accounts -/

structure SemaphoreBooks (initialValue : Int64) (call : T → SemaphoreCall) (s : SemaphoreSystem T)
    (events : List (SemaphoreEvent T)) : Prop where
  value_eq : s.value.toInt = balance initialValue events
  queue_eq : (s.waiters.length : ℤ) = max 0 (-s.value.toInt)
  waited : HasCount (fun t => PassedWait call t (s.pc t)) (waitCount events)
  signalled : HasCount (fun t => PassedSignal call t (s.pc t)) (signalCount events)
  order : releasedCalls events ++ s.waiters = enqueuedCalls events

/-- What is known about a caller at each place. -/
def AtPlace (call : T → SemaphoreCall) (enqueued released : List T) (closed : Finset T) (t : T) :
    SemaphorePc T → Prop
  | .idle => t ∉ enqueued
  | .parked => call t ≠ .signal
  | .inside => call t = .sync
  | .closing ch => ch ∈ released ∧ ch ∉ closed
  | .returned => True
  | .panicked => False

structure SemaphorePlaces (call : T → SemaphoreCall) (s : SemaphoreSystem T)
    (events : List (SemaphoreEvent T)) : Prop where
  nodup : (enqueuedCalls events).Nodup
  queued : ∀ t ∈ s.waiters, s.pc t = .parked
  at_place : ∀ t, AtPlace call (enqueuedCalls events) (releasedCalls events) s.closed t (s.pc t)
  closer : ∀ t u ch, s.pc t = .closing ch → s.pc u = .closing ch → t = u
  closed : ∀ ch ∈ s.closed, ch ∈ releasedCalls events

variable {initialValue : Int64} {call : T → SemaphoreCall} {t : T} {s s' : SemaphoreSystem T}
  {events new : List (SemaphoreEvent T)}

omit [DecidableEq T] in
theorem waitCount_append : waitCount (events ++ new) = waitCount events + waitCount new :=
  List.countP_append

omit [DecidableEq T] in
theorem signalCount_append : signalCount (events ++ new) = signalCount events + signalCount new :=
  List.countP_append

omit [DecidableEq T] in
theorem balance_append :
    balance initialValue (events ++ new) =
      balance initialValue events - waitCount new + signalCount new := by
  unfold balance
  rw [waitCount_append, signalCount_append]
  omega

theorem toInt_bmod {x : ℤ} (h : FitsInt x) : x.bmod (2 ^ 64) = x := by
  have hmin : Int64.minValue.toInt = -9223372036854775808 := by decide
  have hmax : Int64.maxValue.toInt = 9223372036854775807 := by decide
  obtain ⟨hlo, hhi⟩ := h
  rw [hmin] at hlo
  rw [hmax] at hhi
  exact Int.bmod_eq_of_le (by omega) (by omega)

theorem toInt_sub_one {v : Int64} (h : FitsInt (v.toInt - 1)) : (v - 1).toInt = v.toInt - 1 := by
  have hone : (1 : Int64).toInt = 1 := by decide
  rw [Int64.toInt_sub, hone, toInt_bmod h]

theorem toInt_add_one {v : Int64} (h : FitsInt (v.toInt + 1)) : (v + 1).toInt = v.toInt + 1 := by
  have hone : (1 : Int64).toInt = 1 := by decide
  rw [Int64.toInt_add, hone, toInt_bmod h]

omit [DecidableEq T] in
theorem SemaphorePlaces.parked (h : SemaphorePlaces call s events) (hpc : s.pc t = .parked) :
    call t ≠ .signal := by
  have hplace := h.at_place t
  rwa [hpc] at hplace

omit [DecidableEq T] in
theorem SemaphorePlaces.inside (h : SemaphorePlaces call s events) (hpc : s.pc t = .inside) :
    call t = .sync := by
  have hplace := h.at_place t
  rwa [hpc] at hplace

variable {pc' : SemaphorePc T} {waiters : List T}

/-- A critical section of `Wait` keeps the accounts. -/
theorem SemaphoreBooks.waits (h : SemaphoreBooks initialValue call s events)
    (hwaits : call t ≠ .signal) (hidle : s.pc t = .idle) (hpc : pc' ≠ .idle)
    (hnotdone : call t = .wait ∨ ¬ SemaphoreDone pc')
    (hcount : waitCount new = 1 ∧ signalCount new = 0)
    (hfits : FitsInt (balance initialValue (events ++ new)))
    (hqueue : (s.value - 1 < 0 ∧ waiters.length = s.waiters.length + 1) ∨
      (¬ s.value - 1 < 0 ∧ waiters = s.waiters))
    (horder : releasedCalls (events ++ new) ++ waiters = enqueuedCalls (events ++ new)) :
    SemaphoreBooks initialValue call
      { s with value := s.value - 1, waiters := waiters, pc := Function.update s.pc t pc' }
      (events ++ new) := by
  have hbalance : balance initialValue (events ++ new) = s.value.toInt - 1 := by
    rw [balance_append, hcount.1, hcount.2, h.value_eq]
    omega
  rw [hbalance] at hfits
  have hvalue := toInt_sub_one hfits
  have hneg : s.value - 1 < 0 ↔ s.value.toInt - 1 < 0 := by
    rw [Int64.lt_iff_toInt_lt, hvalue]
    rfl
  have hold := h.queue_eq
  refine ⟨hvalue.trans hbalance.symm, ?_, ?_, ?_, horder⟩
  · show (waiters.length : ℤ) = max 0 (-(s.value - 1).toInt)
    rw [hvalue]
    rw [hneg] at hqueue
    rcases hqueue with ⟨hlt, hlen⟩ | ⟨hge, rfl⟩ <;> omega
  · rw [waitCount_append, hcount.1]
    refine h.waited.update_enter ?_ ⟨hwaits, hpc⟩
    rw [hidle]
    exact fun hpassed => hpassed.2 rfl
  · rw [signalCount_append, hcount.2]
    refine h.signalled.update_same ⟨fun hpassed => ?_, fun hpassed => ?_⟩
    · rcases hnotdone with hwait | hdone
      · exact absurd hwait hpassed.1
      · exact absurd hpassed.2 hdone
    · rw [hidle] at hpassed
      exact hpassed.2.elim

/-- A critical section of `Signal` keeps the accounts. -/
theorem SemaphoreBooks.signals (h : SemaphoreBooks initialValue call s events)
    (hplaces : SemaphorePlaces call s events) (hready : Signalling call s t)
    (hdone : SemaphoreDone pc') (hcount : waitCount new = 0 ∧ signalCount new = 1)
    (hfits : FitsInt (balance initialValue (events ++ new)))
    (hqueue : s.waiters.length = waiters.length + 1 ∨ (s.waiters = [] ∧ waiters = []))
    (horder : releasedCalls (events ++ new) ++ waiters = enqueuedCalls (events ++ new)) :
    SemaphoreBooks initialValue call
      { s with value := s.value + 1, waiters := waiters, pc := Function.update s.pc t pc' }
      (events ++ new) := by
  have hbalance : balance initialValue (events ++ new) = s.value.toInt + 1 := by
    rw [balance_append, hcount.1, hcount.2, h.value_eq]
    omega
  rw [hbalance] at hfits
  have hvalue := toInt_add_one hfits
  have hold := h.queue_eq
  have hpc : pc' ≠ .idle := by
    rintro rfl
    exact hdone
  refine ⟨hvalue.trans hbalance.symm, ?_, ?_, ?_, horder⟩
  · show (waiters.length : ℤ) = max 0 (-(s.value + 1).toInt)
    rw [hvalue]
    rcases hqueue with hlen | ⟨hempty, rfl⟩
    · omega
    · rw [hempty] at hold
      simp only [List.length_nil] at hold ⊢
      omega
  · rw [waitCount_append, hcount.1]
    refine h.waited.update_same ⟨fun hpassed => ⟨hpassed.1, ?_⟩, fun hpassed => ⟨hpassed.1, hpc⟩⟩
    rcases hready with ⟨-, hcall⟩ | hinside
    · exact absurd hcall hpassed.1
    · simp [hinside]
  · rw [signalCount_append, hcount.2]
    refine h.signalled.update_enter (fun hpassed => ?_) ⟨?_, hdone⟩
    · rcases hready with ⟨hidle, -⟩ | hinside
      · exact (hidle ▸ hpassed.2 : SemaphoreDone .idle)
      · exact (hinside ▸ hpassed.2 : SemaphoreDone .inside)
    · rcases hready with ⟨-, hcall⟩ | hinside
      · simp [hcall]
      · simp [hplaces.inside hinside]

/-- A move outside of the critical sections keeps the accounts. -/
theorem SemaphoreBooks.quiet (h : SemaphoreBooks initialValue call s events) {closed : Finset T}
    (hwait : PassedWait call t pc' ↔ PassedWait call t (s.pc t))
    (hsignal : PassedSignal call t pc' ↔ PassedSignal call t (s.pc t)) :
    SemaphoreBooks initialValue call
      { s with closed := closed, pc := Function.update s.pc t pc' } (events ++ []) := by
  rw [List.append_nil]
  exact ⟨h.value_eq, h.queue_eq, h.waited.update_same hwait, h.signalled.update_same hsignal,
    h.order⟩

omit [DecidableEq T] in
/-- Joining the queue at the end and leaving it at the front keep the order. -/
theorem SemaphoreBooks.order_append (h : SemaphoreBooks initialValue call s events)
    (hnew : releasedCalls new ++ waiters = s.waiters ++ enqueuedCalls new) :
    releasedCalls (events ++ new) ++ waiters = enqueuedCalls (events ++ new) := by
  have hreleased : releasedCalls (events ++ new) = releasedCalls events ++ releasedCalls new :=
    List.filterMap_append
  have henqueued : enqueuedCalls (events ++ new) = enqueuedCalls events ++ enqueuedCalls new :=
    List.filterMap_append
  rw [hreleased, henqueued, ← h.order, List.append_assoc, hnew, List.append_assoc]

omit [DecidableEq T] in
/-- Where a caller goes on after its `Wait`. -/
theorem afterWait_cases {c : SemaphoreCall} (hc : c ≠ .signal) :
    (c = .wait ∧ (c.afterWait : SemaphorePc T) = .returned) ∨
      (c = .sync ∧ (c.afterWait : SemaphorePc T) = .inside) := by
  cases c with
  | wait => exact .inl ⟨rfl, rfl⟩
  | signal => exact absurd rfl hc
  | sync => exact .inr ⟨rfl, rfl⟩

/-- **Every move keeps the accounts**, while the balance fits. -/
theorem SemaphoreBooks.move (h : SemaphoreBooks initialValue call s events)
    (hplaces : SemaphorePlaces call s events) (hmove : SemaphoreMove call t s s' new)
    (hfits : FitsInt (balance initialValue (events ++ new))) :
    SemaphoreBooks initialValue call s' (events ++ new) := by
  cases hmove with
  | stays =>
    rw [List.append_nil]
    exact h
  | passes hwaits hidle hfree =>
    have horder : releasedCalls (events ++ [.waited t]) ++ s.waiters =
        enqueuedCalls (events ++ [.waited t]) := h.order_append (List.append_nil s.waiters).symm
    rcases afterWait_cases (T := T) hwaits with ⟨hcall, hafter⟩ | ⟨-, hafter⟩
    · rw [hafter]
      exact h.waits hwaits hidle (by simp) (.inl hcall) ⟨rfl, rfl⟩ hfits
        (.inr ⟨hfree, rfl⟩) horder
    · rw [hafter]
      exact h.waits hwaits hidle (by simp) (.inr id) ⟨rfl, rfl⟩ hfits (.inr ⟨hfree, rfl⟩) horder
  | blocks hwaits hidle htaken =>
    exact h.waits hwaits hidle (by simp) (.inr id) ⟨rfl, rfl⟩ hfits
      (.inl ⟨htaken, List.length_append⟩) (h.order_append rfl)
  | resumes hparked _ =>
    refine h.quiet ?_ ?_
    · rw [hparked]
      rcases afterWait_cases (T := T) (hplaces.parked hparked) with ⟨-, hafter⟩ | ⟨-, hafter⟩ <;>
        rw [hafter] <;> simp [PassedWait]
    · rw [hparked]
      rcases afterWait_cases (T := T) (hplaces.parked hparked) with ⟨hcall, -⟩ | ⟨-, hafter⟩
      · simp [PassedSignal, hcall]
      · rw [hafter]
        exact Iff.rfl
  | signals hready hempty =>
    have horder : releasedCalls (events ++ [.signalled t]) ++ s.waiters =
        enqueuedCalls (events ++ [.signalled t]) :=
      h.order_append (List.append_nil s.waiters).symm
    exact h.signals hplaces hready trivial ⟨rfl, rfl⟩ hfits (.inr ⟨hempty, hempty⟩) horder
  | @releases ch rest hready hqueue =>
    have horder : releasedCalls (events ++ [.signalled t, .released ch]) ++ rest =
        enqueuedCalls (events ++ [.signalled t, .released ch]) := by
      apply h.order_append
      rw [hqueue]
      exact (List.append_nil _).symm
    exact h.signals hplaces hready trivial ⟨rfl, rfl⟩ hfits (.inl (by rw [hqueue]; rfl)) horder
  | closes hclosing _ =>
    refine h.quiet ?_ ?_ <;> rw [hclosing]
    · simp [PassedWait]
    · exact Iff.rfl
  | panics hclosing _ =>
    refine h.quiet ?_ ?_ <;> rw [hclosing]
    · simp [PassedWait]
    · exact Iff.rfl

/-! ## Places -/

/-- After a move of `t` every caller is at its place if `t` is, and if the others keep theirs. -/
theorem atPlace_update (h : SemaphorePlaces call s events) {enqueued released : List T}
    {closed : Finset T} (hself : AtPlace call enqueued released closed t pc')
    (henq : ∀ u, u ≠ t → u ∈ enqueued → u ∈ enqueuedCalls events)
    (hrel : ∀ ch ∈ releasedCalls events, ch ∈ released)
    (hclosed : ∀ u ch, u ≠ t → s.pc u = .closing ch → ch ∈ closed → ch ∈ s.closed) (u : T) :
    AtPlace call enqueued released closed u (Function.update s.pc t pc' u) := by
  by_cases hu : u = t
  · rw [hu, Function.update_self]
    exact hself
  · rw [Function.update_of_ne hu]
    have hplace := h.at_place u
    cases hpc : s.pc u with
    | idle =>
      rw [hpc] at hplace
      exact fun hmem => hplace (henq u hu hmem)
    | closing ch =>
      rw [hpc] at hplace
      exact ⟨hrel ch hplace.1, fun hmem => hplace.2 (hclosed u ch hu hpc hmem)⟩
    | parked => rwa [hpc] at hplace
    | inside => rwa [hpc] at hplace
    | returned => rwa [hpc] at hplace
    | panicked => rwa [hpc] at hplace

/-- A move of `t` that joins or leaves no queue and closes no channel. -/
theorem SemaphorePlaces.quiet (h : SemaphorePlaces call s events) {value : Int64}
    (hself : AtPlace call (enqueuedCalls events) (releasedCalls events) s.closed t pc')
    (hqueued : t ∉ s.waiters) (hclosing : ∀ ch, pc' ≠ .closing ch) (henq : enqueuedCalls new = [])
    (hrel : releasedCalls new = []) :
    SemaphorePlaces call { s with value := value, pc := Function.update s.pc t pc' }
      (events ++ new) := by
  have henq' : enqueuedCalls (events ++ new) = enqueuedCalls events := by
    rw [← List.append_nil (enqueuedCalls events), ← henq]
    exact List.filterMap_append
  have hrel' : releasedCalls (events ++ new) = releasedCalls events := by
    rw [← List.append_nil (releasedCalls events), ← hrel]
    exact List.filterMap_append
  refine ⟨?_, ?_, ?_, ?_, ?_⟩ <;> simp only [henq', hrel']
  · exact h.nodup
  · intro u hu
    have hut : u ≠ t := fun heq => hqueued (heq ▸ hu)
    rw [Function.update_of_ne hut]
    exact h.queued u hu
  · exact atPlace_update h hself (fun _ _ hmem => hmem) (fun _ hmem => hmem)
      fun _ _ _ _ hmem => hmem
  · intro u v ch hu hv
    exact h.closer u v ch (eq_of_update hu (hclosing ch)).2 (eq_of_update hv (hclosing ch)).2
  · exact h.closed

omit [DecidableEq T] in
/-- Only a parked caller is queued. -/
theorem SemaphorePlaces.not_queued (h : SemaphorePlaces call s events) (hpc : s.pc t ≠ .parked) :
    t ∉ s.waiters :=
  fun hmem => hpc (h.queued t hmem)

/-- A caller joins the queue. -/
theorem SemaphorePlaces.blocks (h : SemaphorePlaces call s events) {value : Int64}
    (hwaits : call t ≠ .signal) (hidle : s.pc t = .idle) :
    SemaphorePlaces call
      { s with value := value, waiters := s.waiters ++ [t], pc := Function.update s.pc t .parked }
      (events ++ [.waited t, .enqueued t]) := by
  have henq : enqueuedCalls (events ++ [.waited t, .enqueued t]) = enqueuedCalls events ++ [t] :=
    List.filterMap_append
  have hrel : releasedCalls (events ++ [.waited t, .enqueued t]) = releasedCalls events :=
    List.filterMap_append.trans (List.append_nil _)
  have hnew : t ∉ enqueuedCalls events := by
    have hplace := h.at_place t
    rwa [hidle] at hplace
  refine ⟨?_, ?_, ?_, ?_, ?_⟩ <;> simp only [henq, hrel]
  · exact List.Nodup.append h.nodup (List.nodup_singleton t) (List.disjoint_singleton.mpr hnew)
  · intro u hu
    by_cases hut : u = t
    · rw [hut, Function.update_self]
    · rw [Function.update_of_ne hut]
      rcases List.mem_append.mp hu with hu | hu
      · exact h.queued u hu
      · exact absurd (List.mem_singleton.mp hu) hut
  · refine atPlace_update h hwaits (fun u hut hu => ?_) (fun _ hmem => hmem)
      fun _ _ _ _ hmem => hmem
    rcases List.mem_append.mp hu with hu | hu
    · exact hu
    · exact absurd (List.mem_singleton.mp hu) hut
  · intro u v ch hu hv
    exact h.closer u v ch (eq_of_update hu (by simp)).2 (eq_of_update hv (by simp)).2
  · exact h.closed

/-- A thread starts to close a channel that nobody closes. -/
theorem SemaphorePlaces.closer_update (h : SemaphorePlaces call s events) {ch : T}
    (hfresh : ∀ u, s.pc u ≠ .closing ch) (u v ch' : T)
    (hu : Function.update s.pc t (.closing ch) u = .closing ch')
    (hv : Function.update s.pc t (.closing ch) v = .closing ch') : u = v := by
  have hself : ∀ u, Function.update s.pc t (.closing ch) u = .closing ch' →
      (u = t ∧ ch' = ch) ∨ (ch' ≠ ch ∧ s.pc u = .closing ch') := by
    intro u hu
    by_cases hch : ch' = ch
    · by_cases hut : u = t
      · exact .inl ⟨hut, hch⟩
      · rw [Function.update_of_ne hut, hch] at hu
        exact absurd hu (hfresh u)
    · exact .inr ⟨hch, (eq_of_update hu (by simpa using Ne.symm hch)).2⟩
  rcases hself u hu with ⟨hut, hch⟩ | ⟨hch, hu'⟩ <;>
    rcases hself v hv with ⟨hvt, hch'⟩ | ⟨hch', hv'⟩
  · exact hut.trans hvt.symm
  · exact absurd hch hch'
  · exact absurd hch' hch
  · exact h.closer u v ch' hu' hv'

/-- The first of the queue is released; `t` is the only one to close its channel. -/
theorem SemaphorePlaces.releases (h : SemaphorePlaces call s events) {value : Int64} {ch : T}
    {rest : List T} (hready : Signalling call s t) (hqueue : s.waiters = ch :: rest)
    (horder : releasedCalls events ++ s.waiters = enqueuedCalls events) :
    SemaphorePlaces call
      { s with value := value, waiters := rest, pc := Function.update s.pc t (.closing ch) }
      (events ++ [.signalled t, .released ch]) := by
  have henq : enqueuedCalls (events ++ [.signalled t, .released ch]) = enqueuedCalls events :=
    List.filterMap_append.trans (List.append_nil _)
  have hrel : releasedCalls (events ++ [.signalled t, .released ch]) =
      releasedCalls events ++ [ch] :=
    List.filterMap_append
  -- a caller is queued once, so the channel was not released before
  have hnew : ch ∉ releasedCalls events := by
    have hnodup := h.nodup
    rw [← horder, hqueue, List.nodup_append] at hnodup
    exact fun hmem => hnodup.2.2 ch hmem ch List.mem_cons_self rfl
  have hnotparked : s.pc t ≠ .parked := by
    rcases hready with ⟨hidle, -⟩ | hinside
    · simp [hidle]
    · simp [hinside]
  refine ⟨?_, ?_, ?_, ?_, ?_⟩ <;> simp only [henq, hrel]
  · exact h.nodup
  · intro u hu
    have hmem : u ∈ s.waiters := hqueue ▸ List.mem_cons_of_mem ch hu
    have hut : u ≠ t := fun heq => h.not_queued hnotparked (heq ▸ hmem)
    rw [Function.update_of_ne hut]
    exact h.queued u hmem
  · refine atPlace_update h ⟨?_, fun hmem => hnew (h.closed ch hmem)⟩ (fun _ _ hmem => hmem)
      (fun _ hmem => List.mem_append_left _ hmem) fun _ _ _ _ hmem => hmem
    exact List.mem_append_right _ (List.mem_singleton.mpr rfl)
  · -- nobody else closes the channel
    refine h.closer_update fun u hu => ?_
    have hplace := h.at_place u
    rw [hu] at hplace
    exact hnew hplace.1
  · exact fun ch' hmem => List.mem_append_left _ (h.closed ch' hmem)

theorem SemaphorePlaces.closes (h : SemaphorePlaces call s events) {ch : T}
    (hclosing : s.pc t = .closing ch) :
    SemaphorePlaces call
      { s with closed := insert ch s.closed, pc := Function.update s.pc t .returned }
      (events ++ []) := by
  have hplace := h.at_place t
  rw [hclosing] at hplace
  rw [List.append_nil]
  refine ⟨h.nodup, ?_, ?_, ?_, ?_⟩
  · intro u hu
    have hut : u ≠ t := fun heq => h.not_queued (by simp [hclosing]) (heq ▸ hu)
    exact (Function.update_of_ne hut ..).trans (h.queued u hu)
  · refine atPlace_update h trivial (fun _ _ hmem => hmem) (fun _ hmem => hmem)
      fun u ch' hut hu hmem => ?_
    rcases Finset.mem_insert.mp hmem with rfl | hmem
    · exact absurd (h.closer u t ch' hu hclosing) hut
    · exact hmem
  · intro u v ch' hu hv
    exact h.closer u v ch' (eq_of_update hu (by simp)).2 (eq_of_update hv (by simp)).2
  · intro ch' hmem
    rcases Finset.mem_insert.mp hmem with rfl | hmem
    · exact hplace.1
    · exact h.closed ch' hmem

theorem SemaphorePlaces.move (h : SemaphorePlaces call s events)
    (horder : releasedCalls events ++ s.waiters = enqueuedCalls events)
    (hmove : SemaphoreMove call t s s' new) : SemaphorePlaces call s' (events ++ new) := by
  cases hmove with
  | stays =>
    rw [List.append_nil]
    exact h
  | passes hwaits hidle _ =>
    have hqueued := h.not_queued (t := t) (by simp [hidle])
    rcases afterWait_cases (T := T) hwaits with ⟨-, hafter⟩ | ⟨hcall, hafter⟩
    · rw [hafter]
      exact h.quiet trivial hqueued (by simp) rfl rfl
    · rw [hafter]
      exact h.quiet hcall hqueued (by simp) rfl rfl
  | blocks hwaits hidle _ => exact h.blocks hwaits hidle
  | resumes hparked hclosed =>
    have hqueued : t ∉ s.waiters := by
      have hnodup := h.nodup
      rw [← horder, List.nodup_append] at hnodup
      exact fun hmem => hnodup.2.2 t (h.closed t hclosed) t hmem rfl
    rcases afterWait_cases (T := T) (h.parked hparked) with ⟨-, hafter⟩ | ⟨hcall, hafter⟩
    · rw [hafter]
      exact h.quiet trivial hqueued (by simp) rfl rfl
    · rw [hafter]
      exact h.quiet hcall hqueued (by simp) rfl rfl
  | signals hready hempty =>
    exact h.quiet trivial (by simp [hempty]) (by simp) rfl rfl
  | releases hready hqueue => exact h.releases hready hqueue horder
  | closes hclosing _ => exact h.closes hclosing
  | panics hclosing halready =>
    have hplace := h.at_place t
    rw [hclosing] at hplace
    exact absurd halready hplace.2

/-! ## Who is admitted -/

omit [DecidableEq T] in
theorem SemaphorePlaces.admitted_iff (h : SemaphorePlaces call s events) (t : T) :
    Admitted call s t ↔ PassedWait call t (s.pc t) ∧ ¬ t ∈ s.waiters := by
  unfold Admitted PassedWait
  rw [and_assoc, and_congr_right_iff]
  intro hcall
  have hplace := h.at_place t
  have hqueued := h.not_queued (t := t)
  cases hpc : s.pc t with
  | idle => simp [SemaphoreDone]
  | parked => simp [SemaphoreDone]
  | inside => simpa [hpc] using hqueued
  | closing ch => simpa [hpc, SemaphoreDone] using hqueued
  | returned => simpa [hpc, SemaphoreDone] using hqueued
  | panicked => simpa [hpc, SemaphoreDone] using hqueued

/-- The callers past their `Wait` that are not queued are as many as were paid for. -/
theorem SemaphoreBooks.admitted (h : SemaphoreBooks initialValue call s events)
    (hplaces : SemaphorePlaces call s events) :
    ∃ n, HasCount (Admitted call s) n ∧
      (n : ℤ) = min (waitCount events : ℤ) (initialValue.toInt + signalCount events) := by
  have hnodup : s.waiters.Nodup := by
    have := hplaces.nodup
    rw [← h.order] at this
    exact (List.nodup_append.mp this).2.1
  have hsub : ∀ t, t ∈ s.waiters → PassedWait call t (s.pc t) := by
    intro t ht
    have hparked := hplaces.queued t ht
    exact ⟨hplaces.parked hparked, by simp [hparked]⟩
  obtain ⟨hle, hcount⟩ := h.waited.diff (hasCount_mem hnodup) hsub
  refine ⟨_, hcount.congr hplaces.admitted_iff, ?_⟩
  have hvalue := h.value_eq
  have hqueue := h.queue_eq
  unfold balance at hvalue
  omega

/-- With one unit and callers that wait and signal in turn, at most one is inside. -/
theorem SemaphoreBooks.oneInside (h : SemaphoreBooks initialValue call s events)
    (hplaces : SemaphorePlaces call s events) (hone : initialValue = 1)
    (hsync : ∀ t, call t = .sync) : OneInside s := by
  obtain ⟨n, hadmitted, hn⟩ := h.admitted hplaces
  have hsub : ∀ t, PassedSignal call t (s.pc t) → Admitted call s t := by
    intro t ht
    exact ⟨by simp [hsync t], .inr (.inl ht.2)⟩
  obtain ⟨hle, hcount⟩ := hadmitted.diff h.signalled hsub
  have hsmall : n - signalCount events ≤ 1 := by
    have htoInt : initialValue.toInt = 1 := by rw [hone]; decide
    omega
  have hbetween : ∀ t, s.pc t = .inside → Admitted call s t ∧ ¬ PassedSignal call t (s.pc t) := by
    intro t ht
    refine ⟨⟨by simp [hsync t], .inl ht⟩, fun hpassed => ?_⟩
    rw [ht] at hpassed
    exact hpassed.2
  exact fun t u ht hu => hcount.at_most_one hsmall (hbetween t ht) (hbetween u hu)

/-! ## Runs -/

theorem semaphoreBooks_run (hpos : 0 ≤ initialValue) (schedule : List T)
    (hfits : NeverWraps initialValue call schedule) :
    SemaphoreBooks initialValue call (runSemaphore initialValue call schedule).1
        (runSemaphore initialValue call schedule).2 ∧
      SemaphorePlaces call (runSemaphore initialValue call schedule).1
        (runSemaphore initialValue call schedule).2 := by
  refine prefix_induction (P := fun done =>
    SemaphoreBooks initialValue call (runSemaphore initialValue call done).1
        (runSemaphore initialValue call done).2 ∧
      SemaphorePlaces call (runSemaphore initialValue call done).1
        (runSemaphore initialValue call done).2) (List.nil_prefix) ?_ ?_
  · have hvalue : 0 ≤ initialValue.toInt := Int64.le_iff_toInt_le.mp hpos
    refine ⟨⟨?_, ?_, ?_, ?_, rfl⟩, ⟨List.nodup_nil, ?_, ?_, ?_, ?_⟩⟩
    · show initialValue.toInt = initialValue.toInt - 0 + 0
      omega
    · show ((0 : ℕ) : ℤ) = max 0 (-initialValue.toInt)
      omega
    · exact hasCount_zero fun t ht => ht.2 rfl
    · exact hasCount_zero fun t ht => ht.2
    · exact fun t ht => absurd ht List.not_mem_nil
    · exact fun t => List.not_mem_nil
    · exact fun t u ch ht => by cases ht
    · exact fun ch hch => absurd hch (Finset.notMem_empty ch)
  · intro done t _ hpre ih
    have hmove := semaphoreStep_moves call t (runSemaphore initialValue call done).1
    have hfit := hfits (done ++ [t]) hpre
    unfold runSemaphore at hfit ⊢
    rw [eventRun_concat] at hfit ⊢
    exact ⟨ih.1.move ih.2 hmove hfit, ih.2.move ih.1.order hmove⟩

/-- **The semaphore admits exactly what was paid for**, for any callers in any interleaving, as long
as its value does not wrap around.
SOURCE: pkg/concurrency/semaphore.go:26-51, pkg/ipc/shared_memory.go:90-105 -/
theorem semaphore_paidFor (initialValue : Int64) (hpos : 0 ≤ initialValue) (call : T → SemaphoreCall)
    (schedule : List T) (hfits : NeverWraps initialValue call schedule) :
    PaidFor initialValue call (runSemaphore initialValue call schedule).1
        (runSemaphore initialValue call schedule).2 ∧
      (initialValue = 1 → (∀ t, call t = .sync) →
        OneInside (runSemaphore initialValue call schedule).1) := by
  obtain ⟨hbooks, hplaces⟩ := semaphoreBooks_run hpos schedule hfits
  refine ⟨⟨hbooks.waited, hbooks.signalled, hbooks.value_eq, hbooks.queue_eq,
    hbooks.admitted hplaces, hbooks.order, fun t ht => ?_⟩, hbooks.oneInside hplaces⟩
  have hplace := hplaces.at_place t
  rw [ht] at hplace
  exact hplace

end Admission

/-- Three callers of `WriteSync`: one has left, one was released, one is queued. -/
theorem semaphore_paidFor_three :
    NeverWraps 1 (fun _ : Fin 3 => SemaphoreCall.sync) [0, 1, 2, 0] ∧
      PaidFor 1 (fun _ : Fin 3 => SemaphoreCall.sync)
        (runSemaphore 1 (fun _ : Fin 3 => SemaphoreCall.sync) [0, 1, 2, 0]).1
        (runSemaphore 1 (fun _ : Fin 3 => SemaphoreCall.sync) [0, 1, 2, 0]).2 ∧
      OneInside (runSemaphore 1 (fun _ : Fin 3 => SemaphoreCall.sync) [0, 1, 2, 0]).1 := by
  have hfits : NeverWraps 1 (fun _ : Fin 3 => SemaphoreCall.sync) [0, 1, 2, 0] := by
    have hall : ∀ done ∈ ([0, 1, 2, 0] : List (Fin 3)).inits,
        FitsInt (balance 1 (runSemaphore 1 (fun _ : Fin 3 => SemaphoreCall.sync) done).2) := by
      unfold FitsInt
      decide
    exact fun done hdone => hall done ((List.mem_inits done _).mpr hdone)
  obtain ⟨hpaid, hone⟩ := semaphore_paidFor 1 (by decide) (fun _ : Fin 3 => .sync) [0, 1, 2, 0] hfits
  exact ⟨hfits, hpaid, hone rfl fun _ => rfl⟩

/-- Callers `0` and `1` signal, caller `2` waits. -/
def twoSignalsOneWait : Fin 3 → SemaphoreCall
  | 0 => .signal
  | 1 => .signal
  | 2 => .wait

/-- A semaphore that starts with the greatest value is signalled twice; then a `Wait` blocks. -/
theorem wait_blocks_after_wrap :
    (runSemaphore Int64.maxValue twoSignalsOneWait [0, 1, 2]).1.pc 2 = .parked ∧
      ¬ PaidFor Int64.maxValue twoSignalsOneWait
        (runSemaphore Int64.maxValue twoSignalsOneWait [0, 1, 2]).1
        (runSemaphore Int64.maxValue twoSignalsOneWait [0, 1, 2]).2 := by
  refine ⟨by decide, fun h => ?_⟩
  have hvalue := h.value_eq
  revert hvalue
  decide

end OsSimulator.Analysis
