import OsSimulator.Analysis.PipeEof
import OsSimulator.Interface.PipeWriters
import OsSimulator.Library.WakeupCover

/-!
# Writers left asleep at a pipe with room

A `Read` may free many bytes and signals once; the `Write` it wakes may need fewer of them, and it
returns without a signal of its own.  Another `Write` then sleeps beside the free bytes, and only a
later `Read` or `CloseRead` will wake it (`writer_left_asleep`).

This is the only way it happens: no writer is left asleep in a run exactly when no woken `Write`
returns and leaves room while it was the last one awake (`pipe_writers_awake`).  A `Read` of one
byte makes no more room than the `Write` it wakes can use, and where at most one `Write` is parked
there is nobody to leave behind; in runs of such reads nobody is left asleep.
-/

set_option autoImplicit false

namespace OsSimulator.Analysis

open Model Interface Library

section WriterWakeup

variable {T : Type*}

/-! ## The specification -/

/-- A `Write` is parked although there is room, and no `Write` has been woken. -/
def LeftAsleep (call : T → PipeCall) (s : PipeSystem T) : Prop :=
  (∃ t, ParkedWrite call s t) ∧ s.buffer.length < s.capacity ∧ ∀ u, ¬ WokenWrite call s u

/-- The step of `t` uses up the last wake-up: `t` alone is woken, another `Write` is parked, and
there is more room than `t` has bytes left. -/
def DropsWakeup (call : T → PipeCall) (t : T) (s : PipeSystem T) : Prop :=
  WokenWrite call s t ∧ (∀ u, WokenWrite call s u → u = t) ∧ (∃ u, ParkedWrite call s u) ∧
    s.buffer.length + ((callData (call t)).length - writtenAt (s.pc t)) < s.capacity

/-- The step of `t`, if it is one of a `Read`, takes one byte at most, or finds one `Write` at most
parked. -/
def ReadsLittle (call : T → PipeCall) (t : T) (s : PipeSystem T) : Prop :=
  ∀ len, call t = .read len → Interface.Active (s.pc t) →
    min len s.buffer.length ≤ 1 ∨ s.notFull.length ≤ 1

section Runs

variable [DecidableEq T] (capacity : Int64) (call : T → PipeCall)
  (schedule : List (T × (ℕ → ℕ)))

def WritersAwake : Prop :=
  ∀ done, done <+: schedule → ¬ LeftAsleep call (pipeAfter capacity call done)

def NoWakeupDropped : Prop :=
  ∀ done t pick, done ++ [(t, pick)] <+: schedule →
    ¬ DropsWakeup call t (pipeAfter capacity call done)

def LittleReads : Prop :=
  ∀ done t pick, done ++ [(t, pick)] <+: schedule →
    ReadsLittle call t (pipeAfter capacity call done)

end Runs

/-! ## One step -/

variable {call : T → PipeCall} {t : T} {s s' : PipeSystem T}

/-- A step that does not drop the last wake-up leaves nobody asleep. -/
theorem awake_move (hqueue : WriterQueue call s) (hmove : WriterMove call t s s')
    (hcapacity : s'.capacity = s.capacity) (hdrop : ¬ DropsWakeup call t s)
    (hawake : ¬ LeftAsleep call s) : ¬ LeftAsleep call s' := by
  rintro ⟨⟨v, hv⟩, hroom, hnone⟩
  cases hmove with
  | quiet hsame hbuffer _ =>
    refine hawake ⟨⟨v, (hsame.parked v).mp hv⟩, by omega, fun u hu => ?_⟩
    exact hnone u ((hsame.woken u).mpr hu)
  | parks _ hfull _ => omega
  | @returns data hcall hwoken hparkedIff hwokenIff hwrote =>
    have hv' := (hparkedIff v).mp hv
    have hlength := hwrote (hqueue.open_of_parked hv')
    have hleft := hqueue.writtenAt_lt hcall hwoken
    refine hdrop ⟨hwoken, fun u hu => ?_, ⟨v, hv'⟩, ?_⟩
    · by_contra hut
      exact hnone u ((hwokenIff u).mpr ⟨hut, hu⟩)
    · rw [hcall]
      simp only [callData]
      omega
  | reads _ hempty hsame =>
    exact hqueue.exists_parked_iff.mpr ⟨v, (hsame.parked v).mp hv⟩ hempty
  | @wakes len u _ _ _ _ _ _ hwokenIff => exact hnone u ((hwokenIff u).mpr (.inl rfl))
  | closes _ hclosed => exact hclosed v hv

/-- A step that drops the last wake-up leaves somebody asleep. -/
theorem leftAsleep_of_drops (hqueue : WriterQueue call s) (hmove : WriterMove call t s s')
    (hcapacity : s'.capacity = s.capacity) (hdrop : DropsWakeup call t s) :
    LeftAsleep call s' := by
  obtain ⟨hwoken, honly, ⟨v, hv⟩, hroom⟩ := hdrop
  obtain ⟨data', hdata'⟩ := hwoken.1
  have hleft := hqueue.writtenAt_lt hdata' hwoken
  rw [hdata'] at hroom
  simp only [callData] at hroom
  cases hmove with
  | quiet _ _ hnot => exact absurd hwoken hnot
  | @parks data hcall hfull hbuffer =>
    obtain rfl : data' = data := PipeCall.write.inj (hdata'.symm.trans hcall)
    omega
  | @returns data hcall _ hparkedIff hwokenIff hwrote =>
    obtain rfl : data' = data := PipeCall.write.inj (hdata'.symm.trans hcall)
    have hlength := hwrote (hqueue.open_of_parked hv)
    refine ⟨⟨v, (hparkedIff v).mpr hv⟩, by omega, fun u hu => ?_⟩
    obtain ⟨hut, hu'⟩ := (hwokenIff u).mp hu
    exact hut (honly u hu')
  | reads hcall => exact absurd (hdata'.symm.trans hcall) (by simp)
  | wakes hcall => exact absurd (hdata'.symm.trans hcall) (by simp)
  | closes hcall => exact absurd (hdata'.symm.trans hcall) (by simp)

/-- The room is covered by the woken writers. -/
def RoomCovered (call : T → PipeCall) (s : PipeSystem T) : Prop :=
  Covers s.notFull (s.capacity - s.buffer.length) {u | WokenWrite call s u}

theorem covered_move [DecidableEq T] (hqueue : WriterQueue call s) (hqueue' : WriterQueue call s')
    (hmove : WriterMove call t s s') (hcapacity : s'.capacity = s.capacity)
    (hlittle : ReadsLittle call t s) (hcovered : RoomCovered call s) : RoomCovered call s' := by
  have hvacuous : (∀ u, ¬ ParkedWrite call s' u) → RoomCovered call s' := by
    intro hnone hne
    obtain ⟨u, hu⟩ := hqueue'.exists_parked_iff.mp hne
    exact absurd hu (hnone u)
  have hwaits : (∀ u, ParkedWrite call s' u → ParkedWrite call s u) →
      s'.notFull ≠ [] → s.notFull ≠ [] := by
    intro hsub hne
    obtain ⟨u, hu⟩ := hqueue'.exists_parked_iff.mp hne
    exact hqueue.exists_parked_iff.mpr ⟨u, hsub u hu⟩
  cases hmove with
  | quiet hsame hbuffer _ =>
    exact hcovered.weaken (hwaits fun u => (hsame.parked u).mp) (by omega)
      fun u hu => (hsame.woken u).mpr hu
  | parks _ hfull _ =>
    unfold RoomCovered
    rw [Nat.sub_eq_zero_of_le hfull]
    exact covers_zero _ _
  | @returns data hcall hwoken hparkedIff hwokenIff hwrote =>
    -- nobody waits at a closed read end; else `t` has written a byte at least
    intro hne
    obtain ⟨v, hv⟩ := hqueue'.exists_parked_iff.mp hne
    have hlength := hwrote (hqueue.open_of_parked ((hparkedIff v).mp hv))
    have hleft := hqueue.writtenAt_lt hcall hwoken
    have htake := hcovered.take t fun u hu hut => (hwokenIff u).mpr ⟨hut, hu⟩
    exact htake.weaken (hwaits fun u => (hparkedIff u).mp) (by omega) (fun _ hu => hu) hne
  | reads _ hempty hsame =>
    refine hvacuous fun u hu => ?_
    exact hqueue.exists_parked_iff.mpr ⟨u, (hsame.parked u).mp hu⟩ hempty
  | @wakes len u hcall hactive hbuffer hparked hlen hparkedIff hwokenIff =>
    rcases hlittle len hcall hactive with hone | hone
    · have hasleep : ¬ WokenWrite call s u := by
        rintro ⟨-, w, hw⟩
        obtain ⟨-, k, hk⟩ := hparked
        exact absurd (hk.symm.trans hw) (by simp)
      have hsignal : Covers s'.notFull (s.capacity - s.buffer.length + 1) _ :=
        hcovered.signal (hqueue.exists_parked_iff.mpr ⟨u, hparked⟩) hasleep
          ((hwokenIff u).mpr (.inl rfl)) fun v hv => (hwokenIff v).mpr (.inr hv)
      exact hsignal.weaken id (by omega) fun _ hv => hv
    · intro hne
      exact absurd (List.eq_nil_of_length_eq_zero (by omega)) hne
  | closes _ hnone => exact hvacuous hnone

/-- Where the room is covered, the last woken writer fills it. -/
theorem not_drops_of_covered (hqueue : WriterQueue call s) (hcovered : RoomCovered call s) :
    ¬ DropsWakeup call t s := by
  rintro ⟨hwoken, honly, hparked, hroom⟩
  obtain ⟨data, hdata⟩ := hwoken.1
  have hleft := hqueue.writtenAt_lt hdata hwoken
  rw [hdata] at hroom
  simp only [callData] at hroom
  obtain ⟨S, hS, hcard⟩ := hcovered (hqueue.exists_parked_iff.mpr hparked)
  have hone : S.card ≤ 1 := Finset.card_le_one.mpr fun u hu v hv =>
    (honly u (hS u hu)).trans (honly v (hS v hv)).symm
  omega

/-! ## Whole runs -/

variable [DecidableEq T] {capacity : Int64} {schedule : List (T × (ℕ → ℕ))}

theorem pipeAfter_concat (done : List (T × (ℕ → ℕ))) (m : T × (ℕ → ℕ)) :
    pipeAfter capacity call (done ++ [m]) =
      ((pipeAfter capacity call done).step call m.1 m.2).1 := by
  unfold pipeAfter
  rw [runPipe_concat]

theorem writerQueue_run (done : List (T × (ℕ → ℕ))) :
    WriterQueue call (pipeAfter capacity call done) := by
  induction done using List.reverseRecOn with
  | nil => exact writerQueue_init capacity
  | append_singleton done m ih =>
    rw [pipeAfter_concat]
    exact (ih.step m.1 m.2).1

theorem writerMove_run (done : List (T × (ℕ → ℕ))) (m : T × (ℕ → ℕ)) :
    WriterMove call m.1 (pipeAfter capacity call done) (pipeAfter capacity call (done ++ [m])) := by
  rw [pipeAfter_concat]
  exact ((writerQueue_run done).step m.1 m.2).2

theorem writersAwake_iff :
    WritersAwake capacity call schedule ↔ NoWakeupDropped capacity call schedule := by
  unfold WritersAwake NoWakeupDropped
  have hiff := always_iff_clean (fun done => ¬ LeftAsleep call (pipeAfter capacity call done))
    (fun done m => ¬ DropsWakeup call m.1 (pipeAfter capacity call done)) ?_ ?_ schedule
  · rw [hiff]
    exact forall_congr' fun done => Prod.forall
  · rintro ⟨⟨t, -, w, hw⟩, -⟩
    cases hw
  · intro done m hawake
    have hqueue : WriterQueue call (pipeAfter capacity call done) := writerQueue_run done
    have hcapacity : (pipeAfter capacity call (done ++ [m])).capacity = _ :=
      (pipeAfter_move done m).capacity_eq
    exact ⟨mt (leftAsleep_of_drops hqueue (writerMove_run done m) hcapacity),
      fun hdrop => awake_move hqueue (writerMove_run done m) hcapacity hdrop hawake⟩

theorem roomCovered_run (h : LittleReads capacity call schedule) {done : List (T × (ℕ → ℕ))}
    (hpre : done <+: schedule) : RoomCovered call (pipeAfter capacity call done) := by
  induction done using List.reverseRecOn with
  | nil => exact covers_nil _ _
  | append_singleton done m ih =>
    exact covered_move (writerQueue_run done) (writerQueue_run _) (writerMove_run done m)
      (pipeAfter_move done m).capacity_eq (h done m.1 m.2 hpre)
      (ih ((List.prefix_append ..).trans hpre))

/-- **No writer is left asleep beside free room** in exactly the runs in which no woken `Write`
returns and leaves room while it is the last one awake and another one is parked; in particular if
every `Read` takes at most one byte or finds at most one `Write` parked.
SOURCE: pkg/ipc/pipe.go:45-98 -/
theorem pipe_writers_awake (capacity : Int64) (call : T → PipeCall)
    (schedule : List (T × (ℕ → ℕ))) :
    (WritersAwake capacity call schedule ↔ NoWakeupDropped capacity call schedule) ∧
      (LittleReads capacity call schedule → WritersAwake capacity call schedule) := by
  refine ⟨writersAwake_iff, fun h => writersAwake_iff.mpr fun done t pick hpre => ?_⟩
  have hdone : done <+: schedule := (List.prefix_append ..).trans hpre
  exact not_drops_of_covered (writerQueue_run done) (roomCovered_run h hdone)

end WriterWakeup

/-- Three calls of `Write`, which fill a pipe of two bytes and one more each, and a `Read`. -/
def threeWritesOneRead (len : ℕ) : Fin 4 → PipeCall
  | 0 => .write [1, 2]
  | 1 => .write [3]
  | 2 => .write [4]
  | 3 => .read len

/-- With a `Read` of one byte the `Write` that is woken uses all of the room. -/
theorem pipe_writers_awake_oneByte :
    LittleReads 2 (threeWritesOneRead 1) [(0, id), (1, id), (2, id), (3, id), (1, id)] ∧
      WritersAwake 2 (threeWritesOneRead 1) [(0, id), (1, id), (2, id), (3, id), (1, id)] := by
  have hlittle : LittleReads 2 (threeWritesOneRead 1)
      [(0, id), (1, id), (2, id), (3, id), (1, id)] := by
    rintro done t pick - len hcall -
    have hlen : len ≤ 1 := by
      unfold threeWritesOneRead at hcall
      split at hcall
      · cases hcall
      · cases hcall
      · cases hcall
      · exact (PipeCall.read.inj hcall).ge
    exact .inl (le_trans (min_le_left _ _) hlen)
  exact ⟨hlittle, (pipe_writers_awake 2 _ _).2 hlittle⟩

/-- A `Read` of two bytes wakes the second `Write`; when it has written its byte the third one
sleeps beside a free byte. -/
theorem writer_left_asleep :
    LeftAsleep (threeWritesOneRead 2)
      (pipeAfter 2 (threeWritesOneRead 2) [(0, id), (1, id), (2, id), (3, id), (1, id)]) := by
  refine ⟨⟨2, ⟨[4], rfl⟩, 0, by decide⟩, by decide, ?_⟩
  rintro u ⟨-, w, hw⟩
  have hpc : ∀ u, (pipeAfter 2 (threeWritesOneRead 2)
      [(0, id), (1, id), (2, id), (3, id), (1, id)]).pc u = .parked 0 ∨
      ∃ r ∈ [PipeReply.wrote 2 none, .wrote 1 none, .read [1, 2]], (pipeAfter 2
        (threeWritesOneRead 2) [(0, id), (1, id), (2, id), (3, id), (1, id)]).pc u =
          .returned r := by decide
  rcases hpc u with h | ⟨r, -, h⟩
  · exact absurd (h.symm.trans hw) (by simp)
  · exact absurd (h.symm.trans hw) (by simp)

end OsSimulator.Analysis
