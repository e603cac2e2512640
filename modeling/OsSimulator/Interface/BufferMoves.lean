import OsSimulator.Model.BoundedBuffer
import OsSimulator.Library.Census
import OsSimulator.Library.EventRun

/-!
# What a step of a buffer call can do

`ChannelsOk` says what the channels stand for: the queue of a condition variable holds, once
each, the open channels of the calls that wait there.  So a signal always wakes exactly one such
call, and no channel is closed twice.

`BufferMove` lists the moves: a call that finds no room waits, and one that finds room puts or
gets one item, signals the other side and returns.  From channels in order every step is one
of these moves (`step_moves`) and keeps them in order (`ChannelsOk.move`), so properties of runs
are proved move by move (`run_induction`).
-/

set_option autoImplicit false

namespace OsSimulator.Interface

open Model Library

/-- The condition variable a call waits on. -/
def condOf : BufferCall → CondName
  | .put _ => .notFull
  | .get => .notEmpty

/-- How many calls of one side can go on at once: free places for `Put`, items for `Get`. -/
def roomFor (b : BoundedBuffer) : CondName → ℕ
  | .notFull => b.capacity - b.buffer.length
  | .notEmpty => b.buffer.length

section Moves

variable {T : Type*}

/-! ## Channels -/

/-- The call has been signalled and has not looked at the buffer since. -/
def Signalled (s : BufferSystem T) (t : T) : Prop := ∃ ch, s.pc t = .parked ch ∧ ch ∈ s.closed

/-- The call waits and has not been signalled. -/
def Waiting (s : BufferSystem T) (t : T) : Prop := ∃ ch, s.pc t = .parked ch ∧ ch ∉ s.closed

/-- What holds of the waiters and their channels in every reachable state. -/
structure ChannelsOk (call : T → BufferCall) (s : BufferSystem T) : Prop where
  nodup : ∀ cv, (s.waiters cv).Nodup
  /-- the queue of a condition variable holds the open channels of its waiting calls -/
  queued : ∀ cv ch, ch ∈ s.waiters cv ↔
    ch ∉ s.closed ∧ ∃ t, condOf (call t) = cv ∧ s.pc t = .parked ch
  /-- no two calls wait on one channel -/
  own : ∀ t u ch, s.pc t = .parked ch → s.pc u = .parked ch → t = u
  parked_lt : ∀ t ch, s.pc t = .parked ch → ch < s.channels
  closed_lt : ∀ ch ∈ s.closed, ch < s.channels
  no_panic : ∀ t, s.pc t ≠ .panicked

/-! ## Moves -/

variable [DecidableEq T]

/-- Call `t` signals `cv` and returns. -/
inductive Finishes (call : T → BufferCall) (cv : CondName) (t : T) (item : Option Int64)
    (s : BufferSystem T) : BufferSystem T → Prop where
  | alone (empty : s.waiters cv = []) :
      Finishes call cv t item s { s with pc := Function.update s.pc t (.returned item) }
  | wakes {u : T} {ch : ℕ} {rest : List ℕ} (queue : s.waiters cv = ch :: rest)
      (still_open : ch ∉ s.closed) (waits_on : condOf (call u) = cv)
      (parked : s.pc u = .parked ch) :
      Finishes call cv t item s { s with
        waiters := Function.update s.waiters cv rest
        closed := insert ch s.closed
        pc := Function.update s.pc t (.returned item) }

/-- What a step of call `t` can do, with the events it adds. -/
inductive BufferMove (call : T → BufferCall) (t : T) (s : BufferSystem T) :
    BufferSystem T → List (BufferEvent T) → Prop where
  | stays : BufferMove call t s s []
  | waits {cv : CondName} (cond_eq : condOf (call t) = cv) (enters : s.canEnter t = true)
      (no_room : roomFor s.toBoundedBuffer cv = 0) : BufferMove call t s (s.wait cv t) []
  | puts {s' : BufferSystem T} {item : Int64} (call_eq : call t = .put item)
      (enters : s.canEnter t = true) (room : s.buffer.length ≠ s.capacity)
      (finishes : Finishes call .notEmpty t none { s with buffer := s.buffer ++ [item] } s') :
      BufferMove call t s s' [.put t item]
  | gets {s' : BufferSystem T} {item : Int64} {rest : List Int64} (call_eq : call t = .get)
      (enters : s.canEnter t = true) (buffer_eq : s.buffer = item :: rest)
      (finishes : Finishes call .notFull t (some item) { s with buffer := rest } s') :
      BufferMove call t s s' [.got t item]

variable {call : T → BufferCall} {cv : CondName} {t : T} {item : Option Int64}
  {s s' : BufferSystem T} {new : List (BufferEvent T)}

theorem Finishes.buffer_eq (h : Finishes call cv t item s s') :
    s'.toBoundedBuffer = s.toBoundedBuffer := by
  cases h with
  | alone _ => rfl
  | wakes _ _ _ _ => rfl

theorem Finishes.pc_eq (h : Finishes call cv t item s s') :
    s'.pc = Function.update s.pc t (.returned item) := by
  cases h with
  | alone _ => rfl
  | wakes _ _ _ _ => rfl

variable {ch : ℕ}

theorem Finishes.closed_mono (h : Finishes call cv t item s s') (hch : ch ∈ s.closed) :
    ch ∈ s'.closed := by
  cases h with
  | alone _ => exact hch
  | wakes _ _ _ _ => exact Finset.mem_insert_of_mem hch

theorem Finishes.waiters_of_ne (h : Finishes call cv t item s s') {c : CondName} (hc : c ≠ cv) :
    s'.waiters c = s.waiters c := by
  cases h with
  | alone _ => rfl
  | wakes _ _ _ _ => exact Function.update_of_ne hc ..

omit [DecidableEq T] in
/-- The first channel of a queue is open, and some call waits on it. -/
theorem ChannelsOk.head (h : ChannelsOk call s) {rest : List ℕ}
    (hqueue : s.waiters cv = ch :: rest) :
    ch ∉ s.closed ∧ ∃ u, condOf (call u) = cv ∧ s.pc u = .parked ch :=
  (h.queued cv ch).mp (hqueue ▸ List.mem_cons_self)

/-- The signal at the end of a call wakes one waiting call, if there is one. -/
theorem signalAndReturn_finishes (h : ChannelsOk call s) :
    Finishes call cv t item s (s.signalAndReturn cv t item) := by
  unfold BufferSystem.signalAndReturn BufferSystem.signal
  cases hqueue : s.waiters cv with
  | nil => exact .alone hqueue
  | cons ch rest =>
    obtain ⟨hopen, u, hu, hparked⟩ := h.head hqueue
    simp only [if_neg hopen]
    exact .wakes hqueue hopen hu hparked

omit [DecidableEq T] in
/-- The buffer does not matter for the channels. -/
theorem ChannelsOk.withBuffer (h : ChannelsOk call s) (buffer : List Int64) :
    ChannelsOk call { s with buffer := buffer } :=
  ⟨h.nodup, h.queued, h.own, h.parked_lt, h.closed_lt, h.no_panic⟩

/-- **Every step is a move**, while the channels are in order. -/
theorem bufferStep_moves (h : ChannelsOk call s) (t : T) :
    BufferMove call t s (s.step call t).1 (s.step call t).2 := by
  unfold BufferSystem.step
  cases henter : s.canEnter t with
  | false =>
    rw [if_neg Bool.false_ne_true]
    exact .stays
  | true =>
    rw [if_pos rfl]
    cases hcall : call t with
    | put item =>
      have hcond : condOf (call t) = .notFull := by rw [hcall]; rfl
      dsimp only
      unfold BufferSystem.putSection
      by_cases hfull : s.buffer.length = s.capacity
      · rw [if_pos hfull]
        exact .waits hcond henter (Nat.sub_eq_zero_of_le (Nat.le_of_eq hfull.symm))
      · rw [if_neg hfull]
        exact .puts hcall henter hfull (signalAndReturn_finishes (h.withBuffer _))
    | get =>
      have hcond : condOf (call t) = .notEmpty := by rw [hcall]; rfl
      dsimp only
      unfold BufferSystem.getSection
      cases hbuffer : s.buffer with
      | nil => exact .waits hcond henter (List.length_eq_zero_iff.mpr hbuffer)
      | cons item rest =>
        exact .gets hcall henter hbuffer (signalAndReturn_finishes (h.withBuffer _))

/-! ## The channels stay in order -/

omit [DecidableEq T] in
/-- A call that takes the mutex does not wait on an open channel. -/
theorem closed_of_canEnter (henter : s.canEnter t = true) (hparked : s.pc t = .parked ch) :
    ch ∈ s.closed := by
  unfold BufferSystem.canEnter at henter
  rw [hparked] at henter
  exact of_decide_eq_true henter

/-- When `t` moves to `pc'`, an open channel has the waiting calls it had, and maybe `t`. -/
theorem parked_update_iff (henter : s.canEnter t = true) (hopen : ch ∉ s.closed) (pc' : BufferPc)
    (c : CondName) :
    (∃ u, condOf (call u) = c ∧ Function.update s.pc t pc' u = .parked ch) ↔
      (condOf (call t) = c ∧ pc' = .parked ch) ∨
        ∃ u, condOf (call u) = c ∧ s.pc u = .parked ch := by
  constructor
  · rintro ⟨u, hu, hparked⟩
    by_cases hut : u = t
    · rw [hut, Function.update_self] at hparked
      exact .inl ⟨hut ▸ hu, hparked⟩
    · rw [Function.update_of_ne hut] at hparked
      exact .inr ⟨u, hu, hparked⟩
  · rintro (⟨hcond, rfl⟩ | ⟨u, hu, hparked⟩)
    · exact ⟨t, hcond, Function.update_self ..⟩
    · have hut : u ≠ t := by
        rintro rfl
        exact hopen (closed_of_canEnter henter hparked)
      exact ⟨u, hu, by rw [Function.update_of_ne hut, hparked]⟩

/-- A call that waits after `t` has returned waited before. -/
theorem parked_of_update_returned {u : T}
    (hparked : Function.update s.pc t (.returned item) u = .parked ch) : s.pc u = .parked ch :=
  (eq_of_update hparked fun heq => by cases heq).2

theorem ChannelsOk.no_panic_update (h : ChannelsOk call s) {pc' : BufferPc} (hpc : pc' ≠ .panicked)
    (u : T) : Function.update s.pc t pc' u ≠ .panicked := by
  by_cases hut : u = t
  · rw [hut, Function.update_self]
    exact hpc
  · rw [Function.update_of_ne hut]
    exact h.no_panic u

theorem wait_pc : (s.wait cv t).pc = Function.update s.pc t (.parked s.channels) := rfl

theorem wait_waiters :
    (s.wait cv t).waiters = Function.update s.waiters cv (s.waiters cv ++ [s.channels]) := rfl

theorem wait_pc_eq_parked {u : T} (hparked : (s.wait cv t).pc u = .parked ch) :
    (u = t ∧ ch = s.channels) ∨ s.pc u = .parked ch := by
  rw [wait_pc] at hparked
  by_cases hut : u = t
  · rw [hut, Function.update_self] at hparked
    exact .inl ⟨hut, (BufferPc.parked.inj hparked).symm⟩
  · rw [Function.update_of_ne hut] at hparked
    exact .inr hparked

theorem mem_waiters_wait {c : CondName} :
    ch ∈ (s.wait cv t).waiters c ↔ (cv = c ∧ s.channels = ch) ∨ ch ∈ s.waiters c := by
  rw [wait_waiters]
  by_cases hc : c = cv
  · subst hc
    rw [Function.update_self, List.mem_append, List.mem_singleton]
    simp [or_comm, eq_comm]
  · rw [Function.update_of_ne hc]
    simp [Ne.symm hc]

omit [DecidableEq T] in
/-- The next channel has not been used. -/
theorem ChannelsOk.fresh (h : ChannelsOk call s) :
    s.channels ∉ s.closed ∧ (∀ u, s.pc u ≠ .parked s.channels) ∧
      ∀ c, s.channels ∉ s.waiters c := by
  have hparked : ∀ u, s.pc u ≠ .parked s.channels :=
    fun u hu => Nat.lt_irrefl _ (h.parked_lt u _ hu)
  refine ⟨fun hmem => Nat.lt_irrefl _ (h.closed_lt _ hmem), hparked, fun c hmem => ?_⟩
  obtain ⟨-, u, -, hu⟩ := (h.queued c _).mp hmem
  exact hparked u hu

/-- A call that starts to wait queues a new channel. -/
theorem ChannelsOk.waits (h : ChannelsOk call s) (hcond : condOf (call t) = cv)
    (henter : s.canEnter t = true) : ChannelsOk call (s.wait cv t) := by
  obtain ⟨hclosed, hunused, hunqueued⟩ := h.fresh
  refine ⟨fun c => ?_, fun c ch => ?_, fun u v ch hu hv => ?_, fun u ch hu => ?_,
    fun ch hch => Nat.lt_succ_of_lt (h.closed_lt ch hch), fun u hu => ?_⟩
  · rw [wait_waiters]
    by_cases hc : c = cv
    · rw [hc, Function.update_self]
      exact List.Nodup.append (h.nodup cv) (List.nodup_singleton _)
        (List.disjoint_singleton.mpr (hunqueued cv))
    · rw [Function.update_of_ne hc]
      exact h.nodup c
  · rw [mem_waiters_wait, h.queued c ch]
    constructor
    · rintro (⟨rfl, rfl⟩ | ⟨hopen, hwaits⟩)
      · exact ⟨hclosed, t, hcond, Function.update_self ..⟩
      · exact ⟨hopen, (parked_update_iff henter hopen _ c).mpr (.inr hwaits)⟩
    · rintro ⟨hopen, hwaits⟩
      rcases (parked_update_iff henter hopen _ c).mp hwaits with ⟨hc, hch⟩ | hwaits
      · exact .inl ⟨hcond.symm.trans hc, BufferPc.parked.inj hch⟩
      · exact .inr ⟨hopen, hwaits⟩
  · rcases wait_pc_eq_parked hu with ⟨hut, hch⟩ | hu' <;>
      rcases wait_pc_eq_parked hv with ⟨hvt, hch'⟩ | hv'
    · exact hut.trans hvt.symm
    · exact absurd (hch ▸ hv') (hunused v)
    · exact absurd (hch' ▸ hu') (hunused u)
    · exact h.own u v ch hu' hv'
  · rcases wait_pc_eq_parked hu with ⟨-, rfl⟩ | hu
    · exact Nat.lt_succ_self _
    · exact Nat.lt_succ_of_lt (h.parked_lt u ch hu)
  · exact h.no_panic_update (by simp) u hu

omit [DecidableEq T] in
/-- The first channel of a queue is in no other queue, and only once in its own. -/
theorem ChannelsOk.mem_dequeue (h : ChannelsOk call s) {ch ch' : ℕ} {rest : List ℕ}
    (hqueue : s.waiters cv = ch :: rest) {c : CondName} :
    ch' ∈ Function.update s.waiters cv rest c ↔ ch' ≠ ch ∧ ch' ∈ s.waiters c := by
  by_cases hc : c = cv
  · subst hc
    have hnodup : (ch :: rest).Nodup := hqueue ▸ h.nodup c
    rw [Function.update_self, hqueue, List.mem_cons]
    constructor
    · intro hmem
      exact ⟨fun heq => (List.nodup_cons.mp hnodup).1 (heq ▸ hmem), .inr hmem⟩
    · rintro ⟨hne, heq | hmem⟩
      · exact absurd heq hne
      · exact hmem
  · rw [Function.update_of_ne hc, iff_and_self]
    rintro hmem rfl
    obtain ⟨-, u, hu, hparked⟩ := h.head hqueue
    obtain ⟨-, v, hv, hparked'⟩ := (h.queued c ch').mp hmem
    rw [h.own v u ch' hparked' hparked] at hv
    exact hc (hv.symm.trans hu)

/-- A call that returns waits no longer, and closes at most the first channel of a queue. -/
theorem ChannelsOk.finishes (h : ChannelsOk call s) (henter : s.canEnter t = true)
    (hfin : Finishes call cv t item s s') : ChannelsOk call s' := by
  have hpanic : ∀ u, Function.update s.pc t (.returned item) u ≠ .panicked :=
    h.no_panic_update (by simp)
  have hqueued : ∀ c ch, ch ∈ s.waiters c ↔ ch ∉ s.closed ∧
      ∃ u, condOf (call u) = c ∧ Function.update s.pc t (.returned item) u = .parked ch := by
    intro c ch
    rw [h.queued c ch, and_congr_right_iff]
    intro hopen
    rw [parked_update_iff henter hopen]
    simp
  have hown : ∀ u v ch, Function.update s.pc t (.returned item) u = .parked ch →
      Function.update s.pc t (.returned item) v = .parked ch → u = v :=
    fun u v ch hu hv => h.own u v ch (parked_of_update_returned hu) (parked_of_update_returned hv)
  cases hfin with
  | alone hempty =>
    exact ⟨h.nodup, hqueued, hown, fun u ch hu => h.parked_lt u ch (parked_of_update_returned hu),
      h.closed_lt, hpanic⟩
  | @wakes u ch rest hqueue _ _ hparked =>
    have hnodup : (ch :: rest).Nodup := hqueue ▸ h.nodup cv
    refine ⟨fun c => ?_, fun c ch' => ?_, hown,
      fun u ch hu => h.parked_lt u ch (parked_of_update_returned hu), fun ch' hch' => ?_, hpanic⟩
    · show (Function.update s.waiters cv rest c).Nodup
      by_cases hc : c = cv
      · rw [hc, Function.update_self]
        exact hnodup.of_cons
      · rw [Function.update_of_ne hc]
        exact h.nodup c
    · show ch' ∈ Function.update s.waiters cv rest c ↔ ch' ∉ insert ch s.closed ∧ _
      rw [h.mem_dequeue hqueue, hqueued, Finset.mem_insert, not_or, and_assoc]
    · rcases Finset.mem_insert.mp hch' with rfl | hch'
      · exact h.parked_lt u ch' hparked
      · exact h.closed_lt ch' hch'

/-- Every move keeps the channels in order. -/
theorem ChannelsOk.move (h : ChannelsOk call s) (hmove : BufferMove call t s s' new) :
    ChannelsOk call s' := by
  cases hmove with
  | stays => exact h
  | waits hcond henter _ => exact h.waits hcond henter
  | @puts _ item _ henter _ hfin => exact (h.withBuffer (s.buffer ++ [item])).finishes henter hfin
  | @gets _ _ rest _ henter _ hfin => exact (h.withBuffer rest).finishes henter hfin

/-! ## Runs -/

omit [DecidableEq T] in
theorem channelsOk_new (capacity : ℕ) (call : T → BufferCall) :
    ChannelsOk call (newBufferSystem T capacity) := by
  have hidle : ∀ u ch, (newBufferSystem T capacity).pc u ≠ .parked ch := fun _ _ h => by cases h
  refine ⟨fun _ => List.nodup_nil, fun cv ch => ?_, fun t u ch ht => absurd ht (hidle t ch),
    fun t ch ht => absurd ht (hidle t ch), fun ch hch => absurd hch (Finset.notMem_empty ch),
    fun t ht => by cases ht⟩
  constructor
  · intro hmem
    cases hmem
  · rintro ⟨-, t, -, ht⟩
    exact absurd ht (hidle t ch)

/-- **What holds of a new buffer and is kept by every move holds after every run.** -/
theorem runBuffer_induction {P : BufferSystem T → List (BufferEvent T) → Prop} {capacity : ℕ}
    {call : T → BufferCall} (hnew : P (newBufferSystem T capacity) [])
    (hmove : ∀ {t s s' events new}, ChannelsOk call s → P s events → BufferMove call t s s' new →
      P s' (events ++ new)) (schedule : List T) :
    ChannelsOk call (runBuffer capacity call schedule).1 ∧
      P (runBuffer capacity call schedule).1 (runBuffer capacity call schedule).2 := by
  refine eventRun_induction (P := fun s events => ChannelsOk call s ∧ P s events)
    ⟨channelsOk_new capacity call, hnew⟩ ?_ schedule
  rintro s events t ⟨hok, hP⟩
  have hstep := bufferStep_moves hok t
  exact ⟨hok.move hstep, hmove hok hP hstep⟩

end Moves

end OsSimulator.Interface
