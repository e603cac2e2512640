import OsSimulator.Interface.PipeMoves
import OsSimulator.Library.BoundedFifo
import OsSimulator.Library.EventRun
import Mathlib.Data.Int.Notation

/-!
# The pipe as a bounded byte stream

`StreamInv` keeps the books of a pipe: the bytes delivered so far and the buffer are the bytes
appended so far (`OsSimulator.Library.Fifo.Law`), the counters count them, each `Write` has
appended the prefix of its data that it accounts for, and each `Read` has got what it returned.
Every move keeps the books (`StreamInv.move`), whatever the other calls do while a `Write` waits
in the middle of its data.
-/

set_option autoImplicit false

namespace OsSimulator.Analysis

open Model Interface Library

section Stream

variable {T : Type*} [DecidableEq T]

/-! ## The specification -/

/-- The pipe and the events of a run are those of a lossless bounded stream. -/
structure LosslessStream (call : T → PipeCall) (s : PipeSystem T) (events : List (PipeEvent T)) :
    Prop where
  /-- what was delivered, followed by the buffer, is what was appended -/
  stream : deliveredBytes events ++ s.buffer = appendedBytes events
  /-- a call has appended the prefix of its data of the length it returns or has reached -/
  wrote : ∀ t, appendedBy t events = (callData (call t)).take (writtenAt (s.pc t)) ∧
    writtenAt (s.pc t) ≤ (callData (call t)).length
  /-- a call was delivered what it has returned -/
  got : ∀ t, deliveredBy t events = bytesAt (s.pc t)
  bounded : s.buffer.length ≤ s.capacity
  counted : (s.totalWritten : ℤ) - s.totalRead = s.buffer.length

/-! ## Events -/

section Events

variable (t u : T) (bytes : List UInt8) (events new : List (PipeEvent T))

omit [DecidableEq T] in
theorem appendedBytes_append :
    appendedBytes (events ++ new) = appendedBytes events ++ appendedBytes new :=
  List.flatMap_append

omit [DecidableEq T] in
theorem deliveredBytes_append :
    deliveredBytes (events ++ new) = deliveredBytes events ++ deliveredBytes new :=
  List.flatMap_append

theorem appendedBy_append :
    appendedBy t (events ++ new) = appendedBy t events ++ appendedBy t new :=
  List.flatMap_append

theorem deliveredBy_append :
    deliveredBy t (events ++ new) = deliveredBy t events ++ deliveredBy t new :=
  List.flatMap_append

/-- The events of a `Write`. -/
theorem appended_views :
    appendedBytes (bytes.map (.appended t)) = bytes ∧
      deliveredBytes (bytes.map (PipeEvent.appended t)) = [] ∧
      appendedBy u (bytes.map (.appended t)) = (if t = u then bytes else []) ∧
      deliveredBy u (bytes.map (.appended t)) = [] := by
  induction bytes with
  | nil => exact ⟨rfl, rfl, (ite_self _).symm, rfl⟩
  | cons b bytes ih =>
    obtain ⟨happended, hdelivered, hby, hto⟩ := ih
    refine ⟨congrArg (b :: ·) happended, hdelivered, ?_, hto⟩
    show (if t = u then [b] else []) ++ appendedBy u (bytes.map (.appended t)) = _
    rw [hby]
    split <;> rfl

/-- The event of a `Read`. -/
theorem delivered_views :
    appendedBytes [PipeEvent.delivered t bytes] = [] ∧
      deliveredBytes [PipeEvent.delivered t bytes] = bytes ∧
      appendedBy u [.delivered t bytes] = [] ∧
      deliveredBy u [.delivered t bytes] = if t = u then bytes else [] :=
  ⟨rfl, List.append_nil _, rfl, List.append_nil _⟩

end Events

/-! ## The books -/

structure StreamInv (call : T → PipeCall) (s : PipeSystem T) (events : List (PipeEvent T)) :
    Prop where
  law : Fifo.Law s.capacity (appendedBytes events) (deliveredBytes events) s.buffer
  written_eq : s.totalWritten = (appendedBytes events).length
  read_eq : s.totalRead = (deliveredBytes events).length
  wrote : ∀ t, appendedBy t events = (callData (call t)).take (writtenAt (s.pc t)) ∧
    writtenAt (s.pc t) ≤ (callData (call t)).length
  got : ∀ t, deliveredBy t events = bytesAt (s.pc t)

variable {call : T → PipeCall} {t : T} {s s' : PipeSystem T} {events new : List (PipeEvent T)}

/-- A call that has not returned has got nothing. -/
theorem bytesAt_active {pc : PipePc} (h : Interface.Active pc) : bytesAt pc = [] := by
  rcases h with rfl | ⟨_, rfl⟩
  · rfl
  · rfl

/-- A move without events that leaves the buffer and the counters alone. -/
theorem StreamInv.quiet (h : StreamInv call s events) (hbuffer : s'.buffer = s.buffer)
    (hcapacity : s'.capacity = s.capacity) (hwritten : s'.totalWritten = s.totalWritten)
    (hread : s'.totalRead = s.totalRead) (hothers : OnlyWakes t s s')
    (hself : writtenAt (s'.pc t) = writtenAt (s.pc t) ∧ bytesAt (s'.pc t) = bytesAt (s.pc t)) :
    StreamInv call s' (events ++ []) := by
  have hpc : ∀ u, writtenAt (s'.pc u) = writtenAt (s.pc u) ∧
      bytesAt (s'.pc u) = bytesAt (s.pc u) := by
    intro u
    by_cases hu : u = t
    · rw [hu]
      exact hself
    · exact hothers.views hu
  rw [List.append_nil]
  refine ⟨?_, hwritten.trans h.written_eq, hread.trans h.read_eq, fun u => ?_, fun u => ?_⟩
  · rw [hcapacity, hbuffer]
    exact h.law
  · rw [(hpc u).1]
    exact h.wrote u
  · rw [(hpc u).2]
    exact h.got u

/-- A `Write` extends the prefix of its data. -/
theorem StreamInv.writes (h : StreamInv call s events) {data : List UInt8}
    (hcall : call t = .write data) (hactive : Interface.Active (s.pc t))
    (hwrote : Wrote t (data.drop (writtenAt (s.pc t))) (writtenAt (s.pc t)) s s' new) :
    StreamInv call s' (events ++ new) := by
  obtain ⟨hevents, hpipe, hwritten, hbytes, hothers⟩ := hwrote
  have hdata : callData (call t) = data := by rw [hcall]; rfl
  obtain ⟨hfront, hle⟩ := h.wrote t
  rw [hdata] at hfront hle
  obtain ⟨hfit, hroom⟩ := length_fitting_le s.toUnixPipe (data.drop (writtenAt (s.pc t)))
  have htake := fitting_eq_take s.toUnixPipe (data.drop (writtenAt (s.pc t)))
  generalize fitting s.toUnixPipe (data.drop (writtenAt (s.pc t))) = bytes at *
  subst hevents
  have hbound := h.law.bound
  have hviews := fun u => appended_views t u bytes
  refine ⟨?_, ?_, ?_, fun u => ?_, fun u => ?_⟩
  · rw [appendedBytes_append, deliveredBytes_append, (hviews t).1, (hviews t).2.1, List.append_nil,
      hpipe]
    exact h.law.push (by omega)
  · rw [appendedBytes_append, (hviews t).1, List.length_append, ← h.written_eq, hpipe]
    rfl
  · rw [deliveredBytes_append, (hviews t).2.1, List.append_nil, ← h.read_eq, hpipe]
    rfl
  · rw [appendedBy_append, (hviews u).2.2.1]
    by_cases hu : u = t
    · rw [hu, if_pos rfl, hdata, hwritten, hfront, List.take_add, ← htake]
      rw [List.length_drop] at hfit
      exact ⟨rfl, by omega⟩
    · rw [if_neg (Ne.symm hu), List.append_nil, (hothers.views hu).1]
      exact h.wrote u
  · rw [deliveredBy_append, (hviews u).2.2.2, List.append_nil]
    by_cases hu : u = t
    · rw [hu, hbytes, h.got t, bytesAt_active hactive]
    · rw [(hothers.views hu).2]
      exact h.got u

/-- A `Read` takes bytes from the front. -/
theorem StreamInv.reads (h : StreamInv call s events) {len n : ℕ} (hcall : call t = .read len)
    (hactive : Interface.Active (s.pc t)) (hn : n = min len s.buffer.length)
    (hpipe : s'.toUnixPipe = takeFront s.toUnixPipe n)
    (hpc : s'.pc t = .returned (.read (s.buffer.take n))) (hothers : OnlyWakes t s s') :
    StreamInv call s' (events ++ [.delivered t (s.buffer.take n)]) := by
  have hdata : callData (call t) = [] := by rw [hcall]; rfl
  have hlen : (s.buffer.take n).length = n := by
    rw [List.length_take]
    omega
  have hviews := fun u => delivered_views t u (s.buffer.take n)
  refine ⟨?_, ?_, ?_, fun u => ?_, fun u => ?_⟩
  · rw [appendedBytes_append, deliveredBytes_append, (hviews t).1, (hviews t).2.1, List.append_nil,
      hpipe]
    exact h.law.pop n
  · rw [appendedBytes_append, (hviews t).1, List.append_nil, ← h.written_eq, hpipe]
    rfl
  · rw [deliveredBytes_append, (hviews t).2.1, List.length_append, ← h.read_eq, hlen, hpipe]
    rfl
  · rw [appendedBy_append, (hviews u).2.2.1, List.append_nil]
    by_cases hu : u = t
    · obtain ⟨hfront, -⟩ := h.wrote t
      rw [hu, hfront, hdata, hpc, List.take_nil, List.take_nil]
      exact ⟨rfl, Nat.le_refl _⟩
    · rw [(hothers.views hu).1]
      exact h.wrote u
  · rw [deliveredBy_append, (hviews u).2.2.2]
    by_cases hu : u = t
    · rw [hu, if_pos rfl, h.got t, bytesAt_active hactive, hpc, List.nil_append]
      rfl
    · rw [if_neg (Ne.symm hu), List.append_nil, (hothers.views hu).2]
      exact h.got u

/-- A call that writes nothing has written nothing. -/
theorem StreamInv.writtenAt_eq_zero (h : StreamInv call s events) (hdata : callData (call t) = []) :
    writtenAt (s.pc t) = 0 := by
  have hle := (h.wrote t).2
  rw [hdata] at hle
  exact Nat.le_zero.mp hle

/-- **Every move keeps the books.** -/
theorem StreamInv.move (h : StreamInv call s events) (hmove : PipeMove call t s s' new) :
    StreamInv call s' (events ++ new) := by
  -- the moves of calls without data leave the counters alone
  have hquiet : callData (call t) = [] → Interface.Active (s.pc t) → s'.buffer = s.buffer →
      s'.capacity = s.capacity → s'.totalWritten = s.totalWritten → s'.totalRead = s.totalRead →
      OnlyWakes t s s' → writtenAt (s'.pc t) = 0 → bytesAt (s'.pc t) = [] →
      StreamInv call s' (events ++ []) := by
    intro hdata hactive hbuffer hcapacity hwritten hread hothers hw hb
    refine h.quiet hbuffer hcapacity hwritten hread hothers ⟨?_, ?_⟩
    · rw [hw, h.writtenAt_eq_zero hdata]
    · rw [hb, bytesAt_active hactive]
  cases hmove with
  | stays _ => exact (List.append_nil events).symm ▸ h
  | writes hcall hactive hwrote => exact h.writes hcall hactive hwrote
  | waits hcall hactive _ _ hpipe hpc hothers =>
    refine hquiet (by rw [hcall]; rfl) hactive ?_ ?_ ?_ ?_ hothers (by rw [hpc]; rfl)
      (by rw [hpc]; rfl) <;> rw [hpipe]
  | reads hcall hactive hn _ hpipe hpc hothers => exact h.reads hcall hactive hn hpipe hpc hothers
  | closesWrite hcall hidle hpipe hpc hothers =>
    refine hquiet (by rw [hcall]; rfl) (.inl hidle) ?_ ?_ ?_ ?_ hothers (by rw [hpc]; rfl)
      (by rw [hpc]; rfl) <;> rw [hpipe]
  | closesRead hcall hidle hpipe hpc hothers =>
    refine hquiet (by rw [hcall]; rfl) (.inl hidle) ?_ ?_ ?_ ?_ hothers (by rw [hpc]; rfl)
      (by rw [hpc]; rfl) <;> rw [hpipe]

/-! ## Runs -/

theorem runPipe_concat (capacity : Int64) (call : T → PipeCall) (done : List (T × (ℕ → ℕ)))
    (m : T × (ℕ → ℕ)) :
    runPipe capacity call (done ++ [m]) =
      (((runPipe capacity call done).1.step call m.1 m.2).1,
        (runPipe capacity call done).2 ++ ((runPipe capacity call done).1.step call m.1 m.2).2) :=
  eventRun_concat done m

theorem streamInv_run (capacity : Int64) (call : T → PipeCall) (schedule : List (T × (ℕ → ℕ))) :
    StreamInv call (runPipe capacity call schedule).1 (runPipe capacity call schedule).2 := by
  refine eventRun_induction ?_ (fun s _ m h => h.move (step_moves call m.1 m.2 s)) schedule
  refine ⟨Fifo.law_empty _, rfl, rfl, fun t => ⟨?_, Nat.zero_le _⟩, fun t => rfl⟩
  exact (List.take_zero ..).symm

/-- **The pipe is a lossless bounded stream**, for any calls in any interleaving.
SOURCE: pkg/ipc/pipe.go:46-116 -/
theorem pipe_lossless (capacity : Int64) (call : T → PipeCall) (schedule : List (T × (ℕ → ℕ))) :
    LosslessStream call (runPipe capacity call schedule).1 (runPipe capacity call schedule).2 := by
  have hinv := streamInv_run capacity call schedule
  refine ⟨hinv.law.split, hinv.wrote, hinv.got, hinv.law.bound, ?_⟩
  have hlen := hinv.law.length_put
  rw [← hinv.written_eq, ← hinv.read_eq] at hlen
  omega

end Stream

end OsSimulator.Analysis
