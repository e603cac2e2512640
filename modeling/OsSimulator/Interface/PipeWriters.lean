import OsSimulator.Interface.PipeMoves
import OsSimulator.Library.CondQueue

/-!
# Who waits for room in a pipe

The calls in `notFull` are the `Write`s that are parked (`WriterQueue`).  `WriterMove` says what a
step does to the parked and to the woken `Write`s: a `Write` parks where the pipe is full or
returns, a `Read` that takes bytes wakes one of the parked ones, `CloseRead` wakes all of them, and
every other step leaves them alone.
-/

set_option autoImplicit false

namespace OsSimulator.Interface

open Model Library

section Writers

variable {T : Type*}

/-- A `Write` in `Wait` on `notFull` that was not woken. -/
def ParkedWrite (call : T → PipeCall) (s : PipeSystem T) (t : T) : Prop :=
  (∃ data, call t = .write data) ∧ ∃ written, s.pc t = .parked written

/-- A `Write` that was woken and has not run since. -/
def WokenWrite (call : T → PipeCall) (s : PipeSystem T) (t : T) : Prop :=
  (∃ data, call t = .write data) ∧ ∃ written, s.pc t = .woken written

/-- Exactly the parked `Write`s are in the queue for room. -/
structure WriterQueue (call : T → PipeCall) (s : PipeSystem T) : Prop where
  full : Enqueued s.notFull (ParkedWrite call s)
  /-- the other queue holds no `Write` -/
  empty : ∀ t ∈ s.notEmpty, ∀ data, call t ≠ .write data
  /-- a `Write` that waits has bytes left -/
  left : ∀ t data written, call t = .write data →
    s.pc t = .parked written ∨ s.pc t = .woken written → written < data.length
  /-- nobody waits for room once the read end is closed -/
  closed : s.readClosed = true → s.notFull = []

/-- The parked and the woken `Write`s are the same in both states. -/
structure SameWriters (call : T → PipeCall) (s s' : PipeSystem T) : Prop where
  parked : ∀ u, ParkedWrite call s' u ↔ ParkedWrite call s u
  woken : ∀ u, WokenWrite call s' u ↔ WokenWrite call s u

/-- What a step of `t` does to the `Write`s that wait for room. -/
inductive WriterMove (call : T → PipeCall) (t : T) (s s' : PipeSystem T) : Prop where
  | quiet (same : SameWriters call s s') (buffer_le : s.buffer.length ≤ s'.buffer.length)
      (not_woken : ¬ WokenWrite call s t)
  /-- a `Write` parks, without room for the bytes it has left -/
  | parks {data : List UInt8} (call_eq : call t = .write data)
      (full : s'.capacity ≤ s'.buffer.length)
      (buffer_le : s'.buffer.length + writtenAt (s.pc t) ≤ s.buffer.length + data.length)
  /-- a woken `Write` returns; where the read end is open it has written all it had left -/
  | returns {data : List UInt8} (call_eq : call t = .write data) (woken : WokenWrite call s t)
      (parked_iff : ∀ u, ParkedWrite call s' u ↔ ParkedWrite call s u)
      (woken_iff : ∀ u, WokenWrite call s' u ↔ u ≠ t ∧ WokenWrite call s u)
      (wrote : s.readClosed = false →
        s'.buffer.length + writtenAt (s.pc t) = s.buffer.length + data.length)
  /-- a `Read` takes bytes while nobody is parked -/
  | reads {len : ℕ} (call_eq : call t = .read len) (none_parked : s.notFull = [])
      (same : SameWriters call s s')
  /-- a `Read` takes bytes and wakes `u` -/
  | wakes {len : ℕ} {u : T} (call_eq : call t = .read len) (active : Active (s.pc t))
      (buffer_eq : s'.buffer.length + min len s.buffer.length = s.buffer.length)
      (parked : ParkedWrite call s u) (queue_eq : s'.notFull.length + 1 = s.notFull.length)
      (parked_iff : ∀ v, ParkedWrite call s' v ↔ v ≠ u ∧ ParkedWrite call s v)
      (woken_iff : ∀ v, WokenWrite call s' v ↔ v = u ∨ WokenWrite call s v)
  | closes (call_eq : call t = .closeRead) (none_parked : ∀ u, ¬ ParkedWrite call s' u)

variable {call : T → PipeCall} {t u : T} {s s' : PipeSystem T} {data : List UInt8}

/-- The `Write`s other than `t` have not moved. -/
def OthersStay (call : T → PipeCall) (t : T) (s s' : PipeSystem T) : Prop :=
  ∀ u, u ≠ t → (∃ data, call u = .write data) → s'.pc u = s.pc u

theorem OthersStay.parked_iff (h : OthersStay call t s s') (hu : u ≠ t) :
    ParkedWrite call s' u ↔ ParkedWrite call s u := by
  unfold ParkedWrite
  exact and_congr_right fun hcall => by rw [h u hu hcall]

theorem OthersStay.woken_iff (h : OthersStay call t s s') (hu : u ≠ t) :
    WokenWrite call s' u ↔ WokenWrite call s u := by
  unfold WokenWrite
  exact and_congr_right fun hcall => by rw [h u hu hcall]

/-- The parked writes after a step that leaves `t` not parked. -/
theorem OthersStay.parked_of_gone (h : OthersStay call t s s') (ht : ¬ ParkedWrite call s' t)
    (u : T) : ParkedWrite call s' u ↔ u ≠ t ∧ ParkedWrite call s u := by
  by_cases hu : u = t
  · rw [hu]
    exact iff_of_false ht fun hne => hne.1 rfl
  · rw [h.parked_iff hu, and_iff_right hu]

theorem OthersStay.woken_of_gone (h : OthersStay call t s s') (ht : ¬ WokenWrite call s' t)
    (u : T) : WokenWrite call s' u ↔ u ≠ t ∧ WokenWrite call s u := by
  by_cases hu : u = t
  · rw [hu]
    exact iff_of_false ht fun hne => hne.1 rfl
  · rw [h.woken_iff hu, and_iff_right hu]

/-- A step of a call that is no `Write` before and after it leaves the writers as they are. -/
theorem OthersStay.same (h : OthersStay call t s s') (ht : ∀ data, call t ≠ .write data) :
    SameWriters call s s' := by
  have hnot : ¬ ∃ data, call t = .write data := fun ⟨data, hdata⟩ => ht data hdata
  constructor
  · intro u
    by_cases hu : u = t
    · rw [hu]
      exact iff_of_false (fun hp => hnot hp.1) fun hp => hnot hp.1
    · exact h.parked_iff hu
  · intro u
    by_cases hu : u = t
    · rw [hu]
      exact iff_of_false (fun hp => hnot hp.1) fun hp => hnot hp.1
    · exact h.woken_iff hu

theorem not_parkedWrite_of_active (h : Active (s.pc t)) : ¬ ParkedWrite call s t := by
  rintro ⟨-, written, hparked⟩
  rcases h with hidle | ⟨_, hwoken⟩
  · rw [hidle] at hparked
    cases hparked
  · rw [hwoken] at hparked
    cases hparked

theorem WriterQueue.left_others (h : WriterQueue call s) (hstay : OthersStay call t s s')
    (ht : ∀ data written, call t = .write data →
      s'.pc t = .parked written ∨ s'.pc t = .woken written → written < data.length)
    (u : T) (data : List UInt8) (written : ℕ) (hcall : call u = .write data)
    (hpc : s'.pc u = .parked written ∨ s'.pc u = .woken written) : written < data.length := by
  by_cases hu : u = t
  · subst hu
    exact ht data written hcall hpc
  · rw [hstay u hu ⟨data, hcall⟩] at hpc
    exact h.left u data written hcall hpc

/-- A `Write` parks. -/
theorem WriterQueue.write_parks (h : WriterQueue call s) (hcall : call t = .write data)
    (hactive : Active (s.pc t)) (hstay : OthersStay call t s s')
    (hempty : ∀ u ∈ s'.notEmpty, u ∈ s.notEmpty) {k : ℕ} (hpc : s'.pc t = .parked k)
    (hk : k < data.length) (hqueue : s'.notFull = s.notFull ++ [t])
    (hopen : s'.readClosed = false) : WriterQueue call s' where
  full := by
    rw [hqueue]
    refine h.full.join (not_parkedWrite_of_active hactive) fun u => ?_
    by_cases hu : u = t
    · rw [hu]
      exact iff_of_true ⟨⟨data, hcall⟩, k, hpc⟩ (.inl rfl)
    · rw [hstay.parked_iff hu, or_iff_right hu]
  empty := fun u hu => h.empty u (hempty u hu)
  left := h.left_others hstay fun d w hd hw => by
    rw [hpc, PipePc.parked.injEq] at hw
    obtain rfl : k = w := hw.resolve_right (by simp)
    rw [hcall, PipeCall.write.injEq] at hd
    rwa [← hd]
  closed := fun hc => absurd (hopen.symm.trans hc) (by decide)

/-- A call other than a parked one returns. -/
theorem WriterQueue.returned (h : WriterQueue call s) (hstay : OthersStay call t s s')
    (hempty : ∀ u ∈ s'.notEmpty, u ∈ s.notEmpty) {r : PipeReply} (hpc : s'.pc t = .returned r)
    (hparked : ∀ u, ParkedWrite call s' u ↔ ParkedWrite call s u)
    (hqueue : s'.notFull = s.notFull) (hclosed : s'.readClosed = s.readClosed) :
    WriterQueue call s' where
  full := by
    rw [hqueue]
    exact h.full.congr hparked
  empty := fun u hu => h.empty u (hempty u hu)
  left := h.left_others hstay fun d w _ hw => by
    rw [hpc] at hw
    rcases hw with hw | hw <;> cases hw
  closed := fun hc => by
    rw [hqueue]
    exact h.closed (hclosed ▸ hc)

theorem writerQueue_init (capacity : Int64) : WriterQueue call (newPipeSystem T capacity) where
  full := enqueued_nil fun t ⟨_, w, hw⟩ => by cases hw
  empty := fun t ht => by cases ht
  left := fun t data w _ hw => by rcases hw with hw | hw <;> cases hw
  closed := fun _ => rfl

theorem WriterQueue.exists_parked_iff (h : WriterQueue call s) :
    s.notFull ≠ [] ↔ ∃ u, ParkedWrite call s u := by
  rw [Ne, h.full.eq_nil_iff, not_forall_not]

theorem WriterQueue.open_of_parked (h : WriterQueue call s) (hu : ParkedWrite call s u) :
    s.readClosed = false := by
  by_contra hclosed
  exact h.exists_parked_iff.mpr ⟨u, hu⟩ (h.closed (by simpa using hclosed))

theorem WriterQueue.writtenAt_lt (h : WriterQueue call s) (hcall : call t = .write data)
    (hwoken : WokenWrite call s t) : writtenAt (s.pc t) < data.length := by
  obtain ⟨-, written, hpc⟩ := hwoken
  rw [hpc]
  exact h.left t data written hcall (.inr hpc)

variable [DecidableEq T] {pick : ℕ → ℕ}

/-! ## `Write` -/

/-- How the loop of `Write` over `rest` ends. -/
structure WriteEnds (t : T) (rest : List UInt8) (written : ℕ) (s s' : PipeSystem T) : Prop where
  empty_sub : ∀ u ∈ s'.notEmpty, u ∈ s.notEmpty
  others : ∀ u, u ≠ t → u ∉ s.notEmpty → s'.pc u = s.pc u
  ends :
    (∃ k, s'.pc t = .parked k ∧ k < written + rest.length ∧ s'.notFull = s.notFull ++ [t] ∧
      s'.capacity ≤ s'.buffer.length ∧ s'.readClosed = false) ∨
    (∃ r, s'.pc t = .returned r) ∧ s'.notFull = s.notFull ∧
      (s.readClosed = false → s'.buffer.length = s.buffer.length + rest.length)

theorem writeLoop_ends (rest : List UInt8) (written : ℕ) (s : PipeSystem T) :
    WriteEnds t rest written s (s.writeLoop t pick rest written).1 := by
  induction rest generalizing written s with
  | nil =>
    exact ⟨fun u hu => hu, fun u hu _ => Function.update_of_ne hu _ _,
      .inr ⟨⟨_, Function.update_self ..⟩, rfl, fun _ => rfl⟩⟩
  | cons b rest ih =>
    unfold PipeSystem.writeLoop
    by_cases hfull : s.buffer.length ≥ s.capacity ∧ s.readClosed = false
    · rw [if_pos hfull]
      refine ⟨fun u hu => hu, fun u hu _ => Function.update_of_ne hu _ _,
        .inl ⟨written, Function.update_self .., ?_, rfl, hfull.1, hfull.2⟩⟩
      rw [List.length_cons]
      omega
    · rw [if_neg hfull]
      cases hclosed : s.readClosed with
      | true =>
        rw [if_pos rfl]
        refine ⟨fun u hu => hu, fun u hu _ => Function.update_of_ne hu _ _,
          .inr ⟨⟨_, Function.update_self ..⟩, rfl, fun hopen => ?_⟩⟩
        rw [hclosed] at hopen
        cases hopen
      | false =>
        rw [if_neg Bool.false_ne_true]
        obtain ⟨hsub, hothers, hends⟩ := ih (written + 1) (s.appendByte b pick)
        refine ⟨fun u hu => mem_of_mem_unsignalled (hsub u hu), fun u hu hnot => ?_, ?_⟩
        · rw [hothers u hu fun hmem => hnot (mem_of_mem_unsignalled hmem)]
          exact if_neg fun hmem => hnot (mem_of_mem_signalled hmem)
        · rcases hends with ⟨k, hpc, hk, hqueue, hend⟩ | ⟨hpc, hqueue, hlen⟩
          · refine .inl ⟨k, hpc, ?_, hqueue, hend⟩
            rw [List.length_cons]
            omega
          · refine .inr ⟨hpc, hqueue, fun _ => ?_⟩
            have hbuffer : (s.appendByte b pick).buffer.length = s.buffer.length + 1 := by
              simp [PipeSystem.appendByte]
            rw [hlen hclosed, hbuffer, List.length_cons]
            omega

theorem beginWrite_ends (data : List UInt8) (s : PipeSystem T) :
    WriteEnds t data 0 s (s.beginWrite t pick data).1 := by
  unfold PipeSystem.beginWrite
  cases hclosed : s.readClosed with
  | true =>
    rw [if_pos rfl]
    refine ⟨fun u hu => hu, fun u hu _ => Function.update_of_ne hu _ _,
      .inr ⟨⟨_, Function.update_self ..⟩, rfl, fun hopen => ?_⟩⟩
    rw [hclosed] at hopen
    cases hopen
  | false =>
    rw [if_neg Bool.false_ne_true]
    exact writeLoop_ends data 0 s

omit [DecidableEq T] in
/-- A step of a `Write`. -/
theorem WriterQueue.writes (h : WriterQueue call s) (hcall : call t = .write data)
    (hactive : Active (s.pc t)) {new : List (PipeEvent T)}
    (hwrote : Wrote t (data.drop (writtenAt (s.pc t))) (writtenAt (s.pc t)) s s' new)
    (hends : WriteEnds t (data.drop (writtenAt (s.pc t))) (writtenAt (s.pc t)) s s') :
    WriterQueue call s' ∧ WriterMove call t s s' := by
  have hwritten : writtenAt (s.pc t) ≤ data.length := by
    rcases hactive with hidle | ⟨written, hwoken⟩
    · rw [hidle]
      exact Nat.zero_le _
    · rw [hwoken]
      exact Nat.le_of_lt (h.left t data written hcall (.inr hwoken))
  have hrest : (data.drop (writtenAt (s.pc t))).length = data.length - writtenAt (s.pc t) :=
    List.length_drop
  have hstay : OthersStay call t s s' :=
    fun u hu ⟨d, hd⟩ => hends.others u hu fun hmem => h.empty u hmem d hd
  have hlength : s'.buffer.length =
      s.buffer.length + (fitting s.toUnixPipe (data.drop (writtenAt (s.pc t)))).length := by
    have hbuffer : s'.buffer.length = (appendAll s.toUnixPipe _).buffer.length :=
      congrArg (fun p : UnixPipe => p.buffer.length) hwrote.pipe_eq
    exact hbuffer.trans List.length_append
  rcases hends.ends with ⟨k, hpc, hk, hqueue, hfull, hopen⟩ | ⟨⟨r, hpc⟩, hqueue, hall⟩
  · refine ⟨h.write_parks hcall hactive hstay hends.empty_sub hpc (by omega) hqueue hopen,
      .parks hcall hfull ?_⟩
    have hle := (length_fitting_le s.toUnixPipe (data.drop (writtenAt (s.pc t)))).1
    omega
  · have hparkedIff : ∀ u, ParkedWrite call s' u ↔ ParkedWrite call s u := by
      intro u
      rw [hstay.parked_of_gone (fun ⟨_, w, hw⟩ => by cases hpc.symm.trans hw) u]
      exact and_iff_right_of_imp fun hu hut => not_parkedWrite_of_active hactive (hut ▸ hu)
    have hwokenIff := hstay.woken_of_gone fun ⟨_, w, hw⟩ => by cases hpc.symm.trans hw
    have hclosed : s'.readClosed = s.readClosed := by
      rw [hwrote.pipe_eq]
      rfl
    refine ⟨h.returned hstay hends.empty_sub hpc hparkedIff hqueue hclosed, ?_⟩
    by_cases hwoken : WokenWrite call s t
    · refine .returns hcall hwoken hparkedIff hwokenIff fun hopen => ?_
      have hlen := hall hopen
      omega
    · refine .quiet ⟨hparkedIff, fun u => ?_⟩ (by omega) hwoken
      rw [hwokenIff u]
      exact and_iff_right_of_imp fun hu hut => hwoken (hut ▸ hu)

/-! ## The other calls -/

omit [DecidableEq T] in
/-- A call that is no `Write` waits or returns, and wakes no `Write`. -/
theorem WriterQueue.quiet (h : WriterQueue call s) (hcall : ∀ data, call t ≠ .write data)
    (hstay : OthersStay call t s s') (hempty : ∀ u ∈ s'.notEmpty, u ∈ s.notEmpty ∨ u = t)
    (hqueue : s'.notFull = s.notFull) (hclosed : s'.readClosed = s.readClosed)
    (hbuffer : s.buffer.length ≤ s'.buffer.length) :
    WriterQueue call s' ∧ WriterMove call t s s' := by
  have hsame := hstay.same hcall
  refine ⟨⟨?_, fun u hu => ?_, h.left_others hstay fun d _ hd => absurd hd (hcall d), ?_⟩,
    .quiet hsame hbuffer fun hwoken => ?_⟩
  · rw [hqueue]
    exact h.full.congr hsame.parked
  · rcases hempty u hu with hmem | rfl
    · exact h.empty u hmem
    · exact hcall
  · rw [hqueue, hclosed]
    exact h.closed
  · obtain ⟨⟨d, hd⟩, -⟩ := hwoken
    exact hcall d hd

/-- Wake-ups of calls in `notEmpty` do not move a `Write`. -/
theorem WriterQueue.othersStay (h : WriterQueue call s) {pc' : PipePc}
    (hpc : s'.pc = Function.update (wakeThreads PipePc.wake s.notEmpty s.pc) t pc') :
    OthersStay call t s s' := by
  rintro u hu ⟨data, hdata⟩
  rw [hpc, Function.update_of_ne hu]
  exact if_neg fun hmem => h.empty u hmem data hdata

omit [DecidableEq T] in
/-- One parked `Write` is woken. -/
theorem WriterQueue.wakes (h : WriterQueue call s) {pre post : List T} {written : ℕ}
    (hqueue : s.notFull = pre ++ u :: post) (hqueue' : s'.notFull = pre ++ post)
    (hpc : s.pc u = .parked written) (hpc' : s'.pc u = .woken written)
    (hstay : OthersStay call u s s') (hempty : s'.notEmpty = s.notEmpty)
    (hclosed : s'.readClosed = s.readClosed) :
    WriterQueue call s' ∧ (∀ v, ParkedWrite call s' v ↔ v ≠ u ∧ ParkedWrite call s v) ∧
      ∀ v, WokenWrite call s' v ↔ v = u ∨ WokenWrite call s v := by
  have hmem : u ∈ s.notFull := by simp [hqueue]
  have hcall := ((h.full.mem_iff u).mp hmem).1
  have hparkedIff := hstay.parked_of_gone fun ⟨_, w, hw⟩ => by cases hpc'.symm.trans hw
  have hwokenIff : ∀ v, WokenWrite call s' v ↔ v = u ∨ WokenWrite call s v := by
    intro v
    by_cases hv : v = u
    · rw [hv]
      exact iff_of_true ⟨hcall, written, hpc'⟩ (.inl rfl)
    · rw [hstay.woken_iff hv, or_iff_right hv]
  refine ⟨⟨?_, ?_, h.left_others hstay fun d w hd hw => ?_, fun hc => ?_⟩, hparkedIff, hwokenIff⟩
  · rw [hqueue']
    exact (hqueue ▸ h.full).leave hparkedIff
  · rw [hempty]
    exact h.empty
  · rw [hpc', PipePc.woken.injEq] at hw
    obtain rfl : written = w := hw.resolve_left (by simp)
    exact h.left u d written hd (.inl hpc)
  · rw [h.closed (hclosed ▸ hc)] at hmem
    cases hmem

/-- A `Read` takes bytes and signals. -/
theorem WriterQueue.takes (h : WriterQueue call s) {len : ℕ} (hcall : call t = .read len)
    (hactive : Active (s.pc t)) {r : PipeReply}
    (hbuffer : s'.buffer.length + min len s.buffer.length = s.buffer.length)
    (hempty : s'.notEmpty = s.notEmpty) (hclosed : s'.readClosed = s.readClosed)
    (hqueue : s'.notFull = (signalWaiters pick s.notFull).2)
    (hpc : s'.pc = Function.update
      (wakeThreads PipePc.wake (signalWaiters pick s.notFull).1 s.pc) t (.returned r)) :
    WriterQueue call s' ∧ WriterMove call t s s' := by
  have hnot : ∀ data, call t ≠ .write data := fun data => by simp [hcall]
  have hmoved : ∀ v, (∃ d, call v = .write d) →
      s'.pc v = wakeThreads PipePc.wake (signalWaiters pick s.notFull).1 s.pc v := by
    rintro v ⟨d, hd⟩
    have hv : v ≠ t := by
      rintro rfl
      exact hnot d hd
    rw [hpc, Function.update_of_ne hv]
  obtain ⟨hnone, hsignal⟩ | ⟨pre, u, post, hsome, hsignal⟩ := signalWaiters_cases pick s.notFull
  · rw [hsignal] at hqueue hmoved
    have hstay : OthersStay call t s s' :=
      fun v _ hv => (hmoved v hv).trans (if_neg List.not_mem_nil)
    have hsame := hstay.same hnot
    refine ⟨⟨?_, ?_, h.left_others hstay fun d _ hd => absurd hd (hnot d), fun _ => hqueue⟩,
      .reads hcall hnone hsame⟩
    · rw [hqueue, ← hnone]
      exact h.full.congr hsame.parked
    · rw [hempty]
      exact h.empty
  · rw [hsignal] at hqueue hmoved
    have hparked : ParkedWrite call s u := (h.full.mem_iff u).mp (by simp [hsome])
    obtain ⟨hwrite, written, hpcu⟩ := hparked
    have hpcu' : s'.pc u = .woken written := by
      rw [hmoved u hwrite, wakeThreads_of_mem (List.mem_singleton_self u), hpcu]
      rfl
    have hstay : OthersStay call u s s' := fun v hvu hv =>
      (hmoved v hv).trans (if_neg fun hmem => hvu (List.mem_singleton.mp hmem))
    obtain ⟨hwq, hparkedIff, hwokenIff⟩ := h.wakes hsome hqueue hpcu hpcu' hstay hempty hclosed
    refine ⟨hwq, .wakes hcall hactive hbuffer ⟨hwrite, written, hpcu⟩ ?_ hparkedIff hwokenIff⟩
    rw [hqueue, hsome]
    simp only [List.length_append, List.length_cons]
    omega

/-- A step of a `Read`. -/
theorem WriterQueue.readSection (h : WriterQueue call s) {len : ℕ} (hcall : call t = .read len)
    (hactive : Active (s.pc t)) :
    WriterQueue call (s.readSection t pick len).1 ∧
      WriterMove call t s (s.readSection t pick len).1 := by
  have hnot : ∀ data, call t ≠ .write data := fun data => by simp [hcall]
  unfold PipeSystem.readSection
  by_cases hwait : s.buffer.length = 0 ∧ s.writeClosed = false
  · rw [if_pos hwait]
    refine h.quiet hnot (fun u hu _ => Function.update_of_ne hu _ _) (fun u hu => ?_) rfl rfl
      (Nat.le_refl _)
    exact (List.mem_append.mp hu).imp id List.mem_singleton.mp
  · rw [if_neg hwait]
    by_cases heof : s.buffer.length = 0 ∧ s.writeClosed = true
    · rw [if_pos heof]
      exact h.quiet hnot (fun u hu _ => Function.update_of_ne hu _ _) (fun u hu => .inl hu) rfl rfl
        (Nat.le_refl _)
    · rw [if_neg heof]
      have hcount : (s.buffer.drop
          (if len > s.buffer.length then s.buffer.length else len)).length +
          min len s.buffer.length = s.buffer.length := by
        rw [List.length_drop]
        split <;> omega
      exact h.takes hcall hactive hcount rfl rfl rfl rfl

omit [DecidableEq T] in
theorem wake_ne_parked (pc : PipePc) (written : ℕ) : pc.wake ≠ .parked written := by
  cases pc <;> exact PipePc.noConfusion

omit [DecidableEq T] in
theorem waiting_of_wake {pc : PipePc} {written : ℕ} (h : pc.wake = .woken written) :
    pc = .parked written ∨ pc = .woken written := by
  cases pc with
  | idle => cases h
  | parked k => exact .inl (by rw [PipePc.woken.inj h])
  | woken k => exact .inr h
  | returned r => cases h

/-- `CloseRead` wakes all. -/
theorem WriterQueue.closeRead (h : WriterQueue call s) (hcall : call t = .closeRead) :
    WriterQueue call (s.closeRead t) ∧ WriterMove call t s (s.closeRead t) := by
  have hpc : ∀ v, (∃ d, call v = .write d) →
      (s.closeRead t).pc v = wakeThreads PipePc.wake s.notFull s.pc v := by
    rintro v ⟨d, hd⟩
    refine Function.update_of_ne ?_ _ _
    rintro rfl
    rw [hcall] at hd
    cases hd
  have hnone : ∀ v, ¬ ParkedWrite call (s.closeRead t) v := by
    rintro v ⟨hwrite, w, hw⟩
    rw [hpc v hwrite] at hw
    by_cases hmem : v ∈ s.notFull
    · exact wake_ne_parked _ w ((if_pos hmem).symm.trans hw)
    · exact hmem ((h.full.mem_iff v).mpr ⟨hwrite, w, (if_neg hmem).symm.trans hw⟩)
  refine ⟨⟨enqueued_nil hnone, h.empty, fun v d w hd hw => ?_, fun _ => rfl⟩, .closes hcall hnone⟩
  have hwoken := hw.resolve_left fun hparked => hnone v ⟨⟨d, hd⟩, w, hparked⟩
  rw [hpc v ⟨d, hd⟩] at hwoken
  rcases wakeThreads_cases _ s.notFull s.pc v with heq | heq
  · exact h.left v d w hd (.inr (heq.symm.trans hwoken))
  · exact h.left v d w hd (waiting_of_wake (heq.symm.trans hwoken))

/-- **Every step keeps the queue of the writers, and is one of the moves.** -/
theorem WriterQueue.step (h : WriterQueue call s) (t : T) (pick : ℕ → ℕ) :
    WriterQueue call (s.step call t pick).1 ∧ WriterMove call t s (s.step call t pick).1 := by
  have hstay : ¬ WokenWrite call s t → WriterQueue call s ∧ WriterMove call t s s :=
    fun hnot => ⟨h, .quiet ⟨fun _ => Iff.rfl, fun _ => Iff.rfl⟩ (Nat.le_refl _) hnot⟩
  unfold PipeSystem.step
  cases hpc : s.pc t with
  | idle =>
    have hactive : Active (s.pc t) := .inl hpc
    have hzero : writtenAt (s.pc t) = 0 := by rw [hpc]; rfl
    cases hcall : call t with
    | write data =>
      have hwrote : Wrote t data 0 s _ (s.beginWrite t pick data).2 := beginWrite_spec data s
      have hends : WriteEnds t data 0 s (s.beginWrite t pick data).1 := beginWrite_ends data s
      exact h.writes hcall hactive (by rw [hzero]; exact hwrote) (by rw [hzero]; exact hends)
    | read len => exact h.readSection hcall hactive
    | closeWrite =>
      exact h.quiet (fun d => by simp [hcall]) (h.othersStay rfl) (fun u hu => by cases hu) rfl
        rfl (Nat.le_refl _)
    | closeRead => exact h.closeRead hcall
  | woken written =>
    have hactive : Active (s.pc t) := .inr ⟨written, hpc⟩
    have hwritten : writtenAt (s.pc t) = written := by rw [hpc]; rfl
    cases hcall : call t with
    | write data =>
      have hwrote : Wrote t (data.drop written) written s _
          (s.writeLoop t pick (data.drop written) written).2 := writeLoop_spec _ written s
      have hends : WriteEnds t (data.drop written) written s
          (s.writeLoop t pick (data.drop written) written).1 := writeLoop_ends _ written s
      exact h.writes hcall hactive (by rw [hwritten]; exact hwrote)
        (by rw [hwritten]; exact hends)
    | read len => exact h.readSection hcall hactive
    | closeWrite => exact hstay fun ⟨⟨d, hd⟩, _⟩ => absurd (hcall.symm.trans hd) (by simp)
    | closeRead => exact hstay fun ⟨⟨d, hd⟩, _⟩ => absurd (hcall.symm.trans hd) (by simp)
  | parked written => exact hstay fun ⟨_, w, hw⟩ => absurd (hpc.symm.trans hw) (by simp)
  | returned r => exact hstay fun ⟨_, w, hw⟩ => absurd (hpc.symm.trans hw) (by simp)

end Writers

end OsSimulator.Interface
