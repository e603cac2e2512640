import OsSimulator.Interface.BufferMoves
import OsSimulator.Library.BoundedFifo

/-!
# The bounded buffer delivers every item once and in order

Whoever takes a place or an item first, a `Put` appends only when it finds room in the critical
section in which it appends, and a `Get` takes only what it finds there.  So the books of a
bounded queue (`OsSimulator.Library.Fifo.Law`) are kept by every move, and each call has put or got
exactly what it accounts for.
-/

set_option autoImplicit false

namespace OsSimulator.Analysis

open Model Interface Library

section Delivery

variable {T : Type*}

/-! ## The specification -/

/-- The item a call has put: that of a `Put` that has returned. -/
def putAt : BufferCall → BufferPc → List Int64
  | .put item, .returned _ => [item]
  | _, _ => []

/-- The item a call has returned. -/
def gotAt : BufferPc → List Int64
  | .returned (some item) => [item]
  | _ => []

/-- The items appended, in the order in which the `Put`s took effect. -/
def putItems (events : List (BufferEvent T)) : List Int64 :=
  events.flatMap fun
    | .put _ item => [item]
    | .got _ _ => []

/-- The items taken, in the order in which the `Get`s took effect. -/
def gotItems (events : List (BufferEvent T)) : List Int64 :=
  events.flatMap fun
    | .put _ _ => []
    | .got _ item => [item]

variable [DecidableEq T]

/-- What call `t` appended. -/
def putBy (t : T) (events : List (BufferEvent T)) : List Int64 :=
  events.flatMap fun
    | .put u item => if u = t then [item] else []
    | .got _ _ => []

/-- What call `t` took. -/
def gotBy (t : T) (events : List (BufferEvent T)) : List Int64 :=
  events.flatMap fun
    | .put _ _ => []
    | .got u item => if u = t then [item] else []

/-- Each call has put and got what it accounts for: a `Put` its item once it has returned, a
`Get` the item it has returned, and nothing before. -/
def Accounts (call : T → BufferCall) (pc : T → BufferPc) (events : List (BufferEvent T)) : Prop :=
  ∀ t, putBy t events = putAt (call t) (pc t) ∧ gotBy t events = gotAt (pc t)

/-- The buffer and the events of a run are those of a bounded queue. -/
structure DeliversInOrder (capacity : ℕ) (call : T → BufferCall) (s : BufferSystem T)
    (events : List (BufferEvent T)) : Prop where
  /-- what was got, followed by the buffer, is what was put -/
  stream : gotItems events ++ s.buffer = putItems events
  bounded : s.buffer.length ≤ capacity
  accounts : Accounts call s.pc events
  no_panic : ∀ t, s.pc t ≠ .panicked

/-! ## The books -/

structure DeliveryInv (capacity : ℕ) (call : T → BufferCall) (s : BufferSystem T)
    (events : List (BufferEvent T)) : Prop where
  capacity_eq : s.capacity = capacity
  law : Fifo.Law capacity (putItems events) (gotItems events) s.buffer
  accounts : Accounts call s.pc events

variable {capacity : ℕ} {call : T → BufferCall} {cv : CondName} {t : T} {s s' : BufferSystem T}
  {events new : List (BufferEvent T)}

omit [DecidableEq T] in
/-- A call that can take the mutex has not put or got anything. -/
theorem nothing_of_canEnter (henter : s.canEnter t = true) (c : BufferCall) :
    putAt c (s.pc t) = [] ∧ gotAt (s.pc t) = [] := by
  unfold BufferSystem.canEnter at henter
  cases hpc : s.pc t with
  | idle => cases c <;> exact ⟨rfl, rfl⟩
  | parked ch => cases c <;> exact ⟨rfl, rfl⟩
  | returned item =>
    rw [hpc] at henter
    cases henter
  | panicked =>
    rw [hpc] at henter
    cases henter

/-- When `t` moves to `pc'`, the accounts stay right if its events are those of `pc'`. -/
theorem Accounts.move (h : Accounts call s.pc events) (henter : s.canEnter t = true)
    {pc' : BufferPc} (hself : putBy t new = putAt (call t) pc' ∧ gotBy t new = gotAt pc')
    (hothers : ∀ u, u ≠ t → putBy u new = [] ∧ gotBy u new = []) :
    Accounts call (Function.update s.pc t pc') (events ++ new) := by
  intro u
  have hput : putBy u (events ++ new) = putBy u events ++ putBy u new := List.flatMap_append
  have hgot : gotBy u (events ++ new) = gotBy u events ++ gotBy u new := List.flatMap_append
  obtain ⟨hputs, hgots⟩ := h u
  rw [hput, hgot, hputs, hgots]
  by_cases hu : u = t
  · obtain ⟨hnoput, hnogot⟩ := nothing_of_canEnter henter (call t)
    rw [hu, Function.update_self, hself.1, hself.2, hnoput, hnogot]
    exact ⟨rfl, rfl⟩
  · rw [Function.update_of_ne hu, (hothers u hu).1, (hothers u hu).2, List.append_nil,
      List.append_nil]
    exact ⟨rfl, rfl⟩

theorem putBy_put (t u : T) (item : Int64) :
    putBy u [.put t item] = if t = u then [item] else [] :=
  List.append_nil _

theorem gotBy_got (t u : T) (item : Int64) :
    gotBy u [.got t item] = if t = u then [item] else [] :=
  List.append_nil _

/-- A `Put` that has found room. -/
theorem DeliveryInv.puts (h : DeliveryInv capacity call s events) {item : Int64}
    (hcall : call t = .put item) (henter : s.canEnter t = true)
    (hroom : s.buffer.length ≠ s.capacity)
    (hfin : Finishes call .notEmpty t none { s with buffer := s.buffer ++ [item] } s') :
    DeliveryInv capacity call s' (events ++ [.put t item]) := by
  have hbound := h.law.bound
  rw [h.capacity_eq] at hroom
  have hput : putItems (events ++ [.put t item]) = putItems events ++ [item] := List.flatMap_append
  have hgot : gotItems (events ++ [.put t item]) = gotItems events ++ [] := List.flatMap_append
  refine ⟨?_, ?_, ?_⟩
  · rw [hfin.buffer_eq]
    exact h.capacity_eq
  · rw [hfin.buffer_eq, hput, hgot, List.append_nil]
    exact h.law.push (by rw [List.length_singleton]; omega)
  · rw [hfin.pc_eq]
    refine h.accounts.move henter ⟨?_, rfl⟩ fun u hu => ⟨?_, rfl⟩
    · rw [putBy_put, if_pos rfl, hcall]
      rfl
    · rw [putBy_put, if_neg (Ne.symm hu)]

/-- A `Get` that has found an item. -/
theorem DeliveryInv.gets (h : DeliveryInv capacity call s events) {item : Int64}
    {rest : List Int64} (hcall : call t = .get) (henter : s.canEnter t = true)
    (hbuffer : s.buffer = item :: rest)
    (hfin : Finishes call .notFull t (some item) { s with buffer := rest } s') :
    DeliveryInv capacity call s' (events ++ [.got t item]) := by
  have hlaw := h.law.pop 1
  rw [hbuffer] at hlaw
  have hput : putItems (events ++ [.got t item]) = putItems events ++ [] := List.flatMap_append
  have hgot : gotItems (events ++ [.got t item]) = gotItems events ++ [item] := List.flatMap_append
  refine ⟨?_, ?_, ?_⟩
  · rw [hfin.buffer_eq]
    exact h.capacity_eq
  · rw [hfin.buffer_eq, hput, hgot, List.append_nil]
    exact hlaw
  · rw [hfin.pc_eq]
    refine h.accounts.move henter ⟨?_, ?_⟩ fun u hu => ⟨rfl, ?_⟩
    · rw [hcall]
      rfl
    · rw [gotBy_got, if_pos rfl]
      rfl
    · rw [gotBy_got, if_neg (Ne.symm hu)]

/-- **Every move keeps the books.** -/
theorem DeliveryInv.move (h : DeliveryInv capacity call s events)
    (hmove : BufferMove call t s s' new) : DeliveryInv capacity call s' (events ++ new) := by
  cases hmove with
  | stays =>
    rw [List.append_nil]
    exact h
  | @waits cv _ henter _ =>
    have haccounts : Accounts call (s.wait cv t).pc (events ++ []) := by
      rw [wait_pc]
      refine h.accounts.move henter ⟨?_, rfl⟩ fun u _ => ⟨rfl, rfl⟩
      cases call t <;> rfl
    rw [List.append_nil] at haccounts ⊢
    exact ⟨h.capacity_eq, h.law, haccounts⟩
  | puts hcall henter hroom hfin => exact h.puts hcall henter hroom hfin
  | gets hcall henter hbuffer hfin => exact h.gets hcall henter hbuffer hfin

/-! ## Runs -/

theorem deliveryInv_new (capacity : ℕ) (call : T → BufferCall) :
    DeliveryInv capacity call (newBufferSystem T capacity) [] := by
  refine ⟨rfl, Fifo.law_empty capacity, fun t => ⟨?_, rfl⟩⟩
  cases call t <;> rfl

theorem deliveryInv_run (capacity : ℕ) (call : T → BufferCall) (schedule : List T) :
    ChannelsOk call (runBuffer capacity call schedule).1 ∧
      DeliveryInv capacity call (runBuffer capacity call schedule).1
        (runBuffer capacity call schedule).2 :=
  runBuffer_induction (deliveryInv_new capacity call) (fun _ h hmove => h.move hmove) schedule

/-- **The bounded buffer delivers every item once and in order**, for any calls in any
interleaving.  SOURCE: pkg/concurrency/condvar.go:86-114 -/
theorem buffer_delivers_in_order (capacity : ℕ) (call : T → BufferCall) (schedule : List T) :
    DeliversInOrder capacity call (runBuffer capacity call schedule).1
      (runBuffer capacity call schedule).2 := by
  obtain ⟨hok, hinv⟩ := deliveryInv_run capacity call schedule
  exact ⟨hinv.law.split, hinv.law.bound, hinv.accounts, hok.no_panic⟩

end Delivery

end OsSimulator.Analysis
