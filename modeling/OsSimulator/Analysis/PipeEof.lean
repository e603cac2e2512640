import OsSimulator.Analysis.PipeStream

/-!
# End of file on a pipe

`Write` looks at the closed flag of the read end only.  A `Write` after `CloseWrite` is accepted
like any other, and a `Read` after it returns bytes again although the end of the file was
reported before (`bytes_after_eof`).

The end of file is final in the runs in which no `Write` appends after `CloseWrite`: then the
buffer can only shrink, and once it was found empty it stays empty (`eof_final`).  The bytes that
break the rule may also come from a `Write` that was waiting for room when `CloseWrite` was
called.
-/

set_option autoImplicit false

namespace OsSimulator.Analysis

open Model Interface Library

section Eof

variable {T : Type*} [DecidableEq T]

/-! ## The specification -/

section Specification

variable (capacity : Int64) (call : T → PipeCall) (schedule : List (T × (ℕ → ℕ)))

/-- The state after the given steps. -/
def pipeAfter (done : List (T × (ℕ → ℕ))) : PipeSystem T := (runPipe capacity call done).1

/-- A call of `CloseWrite` has completed. -/
def WriteEndClosed (s : PipeSystem T) : Prop :=
  ∃ t, call t = .closeWrite ∧ s.pc t = .returned .closed

/-- A `Read` with room for bytes has returned none. -/
def EofSeen (s : PipeSystem T) : Prop :=
  ∃ t len, call t = .read len ∧ 0 < len ∧ s.pc t = .returned (.read [])

/-- A call that starts after `CloseWrite` has completed appends nothing. -/
def NoLateBytes : Prop :=
  ∀ before t, before <+: schedule → WriteEndClosed call (pipeAfter capacity call before) →
    (pipeAfter capacity call before).pc t = .idle →
    appendedBy t (runPipe capacity call schedule).2 = []

/-- A `Read` that returns after the end of the file was seen returns nothing. -/
def EofSticks : Prop :=
  ∀ before t bytes, before <+: schedule → EofSeen call (pipeAfter capacity call before) →
    (∀ r, (pipeAfter capacity call before).pc t ≠ .returned r) →
    (pipeAfter capacity call schedule).pc t = .returned (.read bytes) → bytes = []

structure EofFinal : Prop where
  no_late_bytes : NoLateBytes capacity call schedule
  eof_sticks : EofSticks capacity call schedule

/-- The next step of `t` appends: it is a `Write` with bytes left, and there is room and a
reader. -/
def CanAppend (s : PipeSystem T) (t : T) : Prop :=
  Interface.Active (s.pc t) ∧ writtenAt (s.pc t) < (callData (call t)).length ∧
    s.readClosed = false ∧ s.buffer.length < s.capacity

/-- No call that starts after `CloseWrite` has completed is let to append. -/
def LateWritesStop : Prop :=
  ∀ before done t pick, before <+: done → done ++ [(t, pick)] <+: schedule →
    WriteEndClosed call (pipeAfter capacity call before) →
    (pipeAfter capacity call before).pc t = .idle →
    ¬ CanAppend call (pipeAfter capacity call done) t

/-- No call at all is let to append after `CloseWrite`. -/
def WritesStop : Prop :=
  ∀ done t pick, done ++ [(t, pick)] <+: schedule →
    (pipeAfter capacity call done).writeClosed = true →
    ¬ CanAppend call (pipeAfter capacity call done) t

end Specification

/-! ## Moves -/

variable {capacity : Int64} {call : T → PipeCall} {schedule before done : List (T × (ℕ → ℕ))}
  {t : T} {s s' : PipeSystem T} {new : List (PipeEvent T)}

omit [DecidableEq T] in
theorem CanAppend.exists_write (h : CanAppend call s t) :
    ∃ data, call t = .write data := by
  obtain ⟨-, hlt, -⟩ := h
  cases hcall : call t with
  | write data => exact ⟨data, rfl⟩
  | read len =>
    rw [hcall] at hlt
    cases hlt
  | closeWrite =>
    rw [hcall] at hlt
    cases hlt
  | closeRead =>
    rw [hcall] at hlt
    cases hlt

/-- **A move appends exactly when it can.** -/
theorem appendedBy_move (hmove : PipeMove call t s s' new) (u : T) :
    appendedBy u new ≠ [] ↔ u = t ∧ CanAppend call s t := by
  have hnone : (∀ data, call t ≠ .write data) → new = [] ∨ (∃ bytes, new = [.delivered t bytes]) →
      (appendedBy u new ≠ [] ↔ u = t ∧ CanAppend call s t) := by
    intro hcall hnew
    have hleft : appendedBy u new = [] := by
      rcases hnew with rfl | ⟨bytes, rfl⟩
      · rfl
      · rfl
    refine iff_of_false (fun h => h hleft) ?_
    rintro ⟨-, hcan⟩
    obtain ⟨data, hdata⟩ := hcan.exists_write
    exact hcall data hdata
  cases hmove with
  | stays hblocked =>
    refine iff_of_false (fun h => h rfl) ?_
    rintro ⟨-, hcan⟩
    obtain ⟨data, hdata⟩ := hcan.exists_write
    exact hblocked data hdata hcan.1
  | writes hcall hactive hwrote =>
    rename_i data
    have hleft : data.drop (writtenAt (s.pc t)) ≠ [] ↔ writtenAt (s.pc t) < data.length := by
      rw [Ne, List.drop_eq_nil_iff]
      omega
    rw [hwrote.events_eq, (appended_views t u _).2.2.1]
    unfold CanAppend
    rw [hcall]
    by_cases hu : t = u
    · rw [if_pos hu, fitting_ne_nil_iff, hleft]
      constructor
      · rintro ⟨hlt, hopen, hroom⟩
        exact ⟨hu.symm, hactive, hlt, hopen, hroom⟩
      · rintro ⟨-, -, hlt, hopen, hroom⟩
        exact ⟨hlt, hopen, hroom⟩
    · rw [if_neg hu]
      exact iff_of_false (fun h => h rfl) fun h => hu h.1.symm
  | waits hcall => exact hnone (fun data h => absurd (hcall.symm.trans h) (by simp)) (.inl rfl)
  | reads hcall =>
    exact hnone (fun data h => absurd (hcall.symm.trans h) (by simp)) (.inr ⟨_, rfl⟩)
  | closesWrite hcall => exact hnone (fun data h => absurd (hcall.symm.trans h) (by simp)) (.inl rfl)
  | closesRead hcall => exact hnone (fun data h => absurd (hcall.symm.trans h) (by simp)) (.inl rfl)

omit [DecidableEq T] in
theorem writeClosed_move (hmove : PipeMove call t s s' new) (h : s.writeClosed = true) :
    s'.writeClosed = true := by
  cases hmove with
  | stays _ => exact h
  | writes _ _ hwrote => rw [hwrote.pipe_eq]; exact h
  | waits _ _ _ _ hpipe => rw [hpipe]; exact h
  | reads _ _ _ _ hpipe => rw [hpipe]; exact h
  | closesWrite _ _ hpipe => rw [hpipe]
  | closesRead _ _ hpipe => rw [hpipe]; exact h

omit [DecidableEq T] in
/-- The flag is set when `CloseWrite` has completed. -/
theorem writeEndClosed_move (hmove : PipeMove call t s s' new)
    (hinv : WriteEndClosed call s → s.writeClosed = true) (h : WriteEndClosed call s') :
    s'.writeClosed = true := by
  obtain ⟨c, hcall, hpc⟩ := h
  by_cases hc : c = t
  · subst hc
    cases hmove with
    | stays _ => exact hinv ⟨c, hcall, hpc⟩
    | writes hcall' => exact absurd (hcall.symm.trans hcall') (by simp)
    | waits hcall' => exact absurd (hcall.symm.trans hcall') (by simp)
    | reads hcall' => exact absurd (hcall.symm.trans hcall') (by simp)
    | closesWrite _ _ hpipe => rw [hpipe]
    | closesRead hcall' => exact absurd (hcall.symm.trans hcall') (by simp)
  · exact writeClosed_move hmove (hinv ⟨c, hcall, hmove.others.returned hc hpc⟩)

/-- **An empty pipe that nobody can append to stays empty**, and its reads return nothing. -/
theorem drained_move (hmove : PipeMove call t s s' new) (hempty : s.buffer = [])
    (hstop : ¬ CanAppend call s t) :
    s'.buffer = [] ∧ (s'.pc t = s.pc t ∨ bytesAt (s'.pc t) = []) := by
  cases hmove with
  | stays _ => exact ⟨hempty, .inl rfl⟩
  | writes hcall hactive hwrote =>
    have hnew : appendedBy t new = [] := by
      by_contra hne
      exact hstop ((appendedBy_move (.writes hcall hactive hwrote) t).mp hne).2
    rw [hwrote.events_eq, (appended_views t t _).2.2.1, if_pos rfl] at hnew
    refine ⟨?_, .inr hwrote.bytes_eq⟩
    rw [hwrote.pipe_eq, hnew, appendAll_nil]
    exact hempty
  | waits _ _ _ _ hpipe hpc =>
    rw [hpipe, hpc]
    exact ⟨hempty, .inr rfl⟩
  | reads _ _ _ _ hpipe hpc =>
    rw [hpipe, hpc, hempty, List.take_nil]
    refine ⟨?_, .inr rfl⟩
    show s.buffer.drop _ = []
    rw [hempty, List.drop_nil]
  | closesWrite _ _ hpipe hpc =>
    rw [hpipe, hpc]
    exact ⟨hempty, .inr rfl⟩
  | closesRead _ _ hpipe hpc =>
    rw [hpipe, hpc]
    exact ⟨hempty, .inr rfl⟩

/-- The end of the file is only reported by an empty pipe whose write end is closed, and it stays
empty as long as nobody appends. -/
theorem eofSeen_move (hmove : PipeMove call t s s' new)
    (hstop : s.writeClosed = true → ¬ CanAppend call s t)
    (hinv : EofSeen call s → s.buffer = [] ∧ s.writeClosed = true) (h : EofSeen call s') :
    s'.buffer = [] ∧ s'.writeClosed = true := by
  have hkeep : s.buffer = [] → s.writeClosed = true → s'.buffer = [] ∧ s'.writeClosed = true :=
    fun hempty hclosed =>
      ⟨(drained_move hmove hempty (hstop hclosed)).1, writeClosed_move hmove hclosed⟩
  obtain ⟨r, len, hcall, hlen, hpc⟩ := h
  by_cases hr : r = t
  · subst hr
    cases hmove with
    | stays _ => exact hinv ⟨r, len, hcall, hlen, hpc⟩
    | writes hcall' => exact absurd (hcall.symm.trans hcall') (by simp)
    | waits _ _ _ _ _ hpc' => exact absurd (hpc'.symm.trans hpc) (by simp)
    | reads hcall' _ hn hready _ hpc' =>
      obtain rfl := PipeCall.read.inj (hcall.symm.trans hcall')
      have htake := PipeReply.read.inj (PipePc.returned.inj (hpc'.symm.trans hpc))
      have hempty : s.buffer = [] := by
        rcases List.take_eq_nil_iff.mp htake with hzero | hempty
        · exact List.eq_nil_of_length_eq_zero (by omega)
        · exact hempty
      rcases hready with hne | hclosed
      · exact absurd hempty hne
      · exact hkeep hempty hclosed
    | closesWrite hcall' => exact absurd (hcall.symm.trans hcall') (by simp)
    | closesRead hcall' => exact absurd (hcall.symm.trans hcall') (by simp)
  · obtain ⟨hempty, hclosed⟩ := hinv ⟨r, len, hcall, hlen, hmove.others.returned hr hpc⟩
    exact hkeep hempty hclosed

/-! ## Runs -/

/-- The step after `done`, as a move. -/
theorem pipeAfter_move (done : List (T × (ℕ → ℕ))) (m : T × (ℕ → ℕ)) :
    PipeMove call m.1 (pipeAfter capacity call done) (pipeAfter capacity call (done ++ [m]))
      ((pipeAfter capacity call done).step call m.1 m.2).2 := by
  unfold pipeAfter
  rw [runPipe_concat]
  exact step_moves call m.1 m.2 _

theorem events_prefix (hpre : before <+: schedule) :
    (runPipe capacity call before).2 <+: (runPipe capacity call schedule).2 := by
  refine prefix_induction (P := fun done =>
    (runPipe capacity call before).2 <+: (runPipe capacity call done).2) hpre
      (List.prefix_refl _) ?_
  intro done m _ _ ih
  rw [runPipe_concat]
  exact ih.trans (List.prefix_append ..)

theorem writeClosed_later (hpre : before <+: schedule)
    (h : (pipeAfter capacity call before).writeClosed = true) :
    (pipeAfter capacity call schedule).writeClosed = true := by
  refine prefix_induction (P := fun done => (pipeAfter capacity call done).writeClosed = true)
    hpre h ?_
  intro done m _ _ ih
  exact writeClosed_move (pipeAfter_move done m) ih

theorem writeClosed_of_writeEndClosed (h : WriteEndClosed call (pipeAfter capacity call done)) :
    (pipeAfter capacity call done).writeClosed = true := by
  induction done using List.reverseRecOn with
  | nil =>
    obtain ⟨c, -, hpc⟩ := h
    cases hpc
  | append_singleton done m ih => exact writeEndClosed_move (pipeAfter_move done m) ih h

/-- Late calls append nothing exactly when they are not let to. -/
theorem noLateBytes_iff :
    NoLateBytes capacity call schedule ↔ LateWritesStop capacity call schedule := by
  constructor
  · intro h before done t pick hbefore hpre hclosed hidle hcan
    have hnew : appendedBy t ((pipeAfter capacity call done).step call t pick).2 ≠ [] :=
      (appendedBy_move (pipeAfter_move done (t, pick)) t).mpr ⟨rfl, hcan⟩
    have hnone := h before t (hbefore.trans ((List.prefix_append ..).trans hpre)) hclosed hidle
    have hevents : (runPipe capacity call (done ++ [(t, pick)])).2 <+:
        (runPipe capacity call schedule).2 := events_prefix hpre
    obtain ⟨rest, hrest⟩ := hevents
    rw [← hrest, runPipe_concat, appendedBy_append, appendedBy_append, List.append_eq_nil_iff,
      List.append_eq_nil_iff] at hnone
    exact hnew hnone.1.2
  · intro h before t hpre hclosed hidle
    refine prefix_induction (P := fun done => appendedBy t (runPipe capacity call done).2 = [])
      hpre ?_ ?_
    · have hwrote := ((streamInv_run capacity call before).wrote t).1
      change (runPipe capacity call before).1.pc t = .idle at hidle
      rw [hidle] at hwrote
      exact hwrote.trans (List.take_zero ..)
    · rintro done ⟨u, pick⟩ hbefore hdone ih
      rw [runPipe_concat, appendedBy_append, ih, List.nil_append]
      by_contra hne
      obtain ⟨rfl, hcan⟩ := (appendedBy_move (pipeAfter_move done (u, pick)) t).mp hne
      exact h before done t pick hbefore hdone hclosed hidle hcan

theorem lateWritesStop_of_writesStop (h : WritesStop capacity call schedule) :
    LateWritesStop capacity call schedule := by
  intro before done t pick hbefore hpre hclosed _
  exact h done t pick hpre
    (writeClosed_later hbefore (writeClosed_of_writeEndClosed hclosed))

/-- Without appends after `CloseWrite` the pipe is empty once the end of the file was seen. -/
theorem drained_of_eofSeen (h : WritesStop capacity call schedule) (hpre : done <+: schedule)
    (heof : EofSeen call (pipeAfter capacity call done)) :
    (pipeAfter capacity call done).buffer = [] ∧
      (pipeAfter capacity call done).writeClosed = true := by
  induction done using List.reverseRecOn with
  | nil =>
    obtain ⟨r, len, -, -, hpc⟩ := heof
    cases hpc
  | append_singleton done m ih =>
    exact eofSeen_move (pipeAfter_move done m) (h done m.1 m.2 hpre)
      (ih ((List.prefix_append ..).trans hpre)) heof

theorem eofSticks_of_writesStop (h : WritesStop capacity call schedule) :
    EofSticks capacity call schedule := by
  intro before t bytes hpre heof hrunning hreturned
  -- from the end of the file on the pipe is empty, and no read gets a byte
  have hdrained : ∀ done, before <+: done → done <+: schedule →
      (pipeAfter capacity call done).buffer = [] ∧
        (pipeAfter capacity call done).writeClosed = true ∧
        bytesAt ((pipeAfter capacity call done).pc t) = [] := by
    intro done hbefore hdone
    refine prefix_induction (P := fun done => (pipeAfter capacity call done).buffer = [] ∧
      (pipeAfter capacity call done).writeClosed = true ∧
      bytesAt ((pipeAfter capacity call done).pc t) = []) hbefore ?_ ?_
    · obtain ⟨hempty, hclosed⟩ := drained_of_eofSeen h (hbefore.trans hdone) heof
      refine ⟨hempty, hclosed, ?_⟩
      cases hpc : (pipeAfter capacity call before).pc t with
      | returned r => exact absurd hpc (hrunning r)
      | idle => rfl
      | parked written => rfl
      | woken written => rfl
    · rintro done' m _ hdone' ⟨hempty, hclosed, hbytes⟩
      have hmove : PipeMove call m.1 (pipeAfter capacity call done')
          (pipeAfter capacity call (done' ++ [m])) _ := pipeAfter_move done' m
      obtain ⟨hempty', hself⟩ :=
        drained_move hmove hempty (h done' m.1 m.2 (hdone'.trans hdone) hclosed)
      refine ⟨hempty', writeClosed_move hmove hclosed, ?_⟩
      by_cases ht : t = m.1
      · rcases hself with hself | hself
        · rw [ht, hself, ← ht]
          exact hbytes
        · rw [ht]
          exact hself
      · rw [(hmove.others.views ht).2]
        exact hbytes
  have hbytes := (hdrained schedule hpre (List.prefix_refl _)).2.2
  rw [hreturned] at hbytes
  exact hbytes

/-- **The end of file is final** if no call can append after `CloseWrite`; and the calls that
start after `CloseWrite` append nothing exactly when each of their steps finds the read end
closed, the buffer full or no byte left.
SOURCE: pkg/ipc/pipe.go:46-107 -/
theorem eof_final (capacity : Int64) (call : T → PipeCall) (schedule : List (T × (ℕ → ℕ))) :
    (WritesStop capacity call schedule → EofFinal capacity call schedule) ∧
      (NoLateBytes capacity call schedule ↔ LateWritesStop capacity call schedule) :=
  ⟨fun h => ⟨noLateBytes_iff.mpr (lateWritesStop_of_writesStop h), eofSticks_of_writesStop h⟩,
    noLateBytes_iff⟩

end Eof

/-- Call `0` closes the write end, `1` and `3` read, `2` writes a byte. -/
def closeThenWrite : Fin 4 → PipeCall
  | 0 => .closeWrite
  | 1 => .read 1
  | 2 => .write [7]
  | 3 => .read 1

/-- The byte is written and read before the write end is closed. -/
theorem eof_final_writeThenClose :
    WritesStop 4096 closeThenWrite [(2, id), (3, id), (0, id), (1, id)] ∧
      EofFinal 4096 closeThenWrite [(2, id), (3, id), (0, id), (1, id)] := by
  have hstop : WritesStop 4096 closeThenWrite [(2, id), (3, id), (0, id), (1, id)] := by
    rintro done t pick ⟨rest, hrest⟩ hclosed hcan
    rcases done with _ | ⟨m₁, _ | ⟨m₂, _ | ⟨m₃, done⟩⟩⟩
    · cases hclosed
    · obtain ⟨rfl, -⟩ := List.cons.inj hrest
      cases hclosed
    · simp only [List.cons_append, List.nil_append, List.cons.injEq] at hrest
      obtain ⟨rfl, rfl, -⟩ := hrest
      cases hclosed
    · -- the only step after the close is that of call `1`, a read
      have hlast : t = 1 := by
        have hlen := congrArg List.length hrest
        simp only [List.cons_append, List.append_assoc, List.cons.injEq] at hrest
        obtain ⟨-, -, -, hrest⟩ := hrest
        cases done with
        | nil => exact congrArg Prod.fst (List.cons.inj hrest).1
        | cons m done =>
          simp only [List.length_append, List.length_cons, List.length_nil] at hlen
          omega
      obtain ⟨data, hdata⟩ := hcan.exists_write
      rw [hlast] at hdata
      cases hdata
  exact ⟨hstop, (eof_final 4096 closeThenWrite _).1 hstop⟩

/-- The end of the file is reported, and then a byte is written and read. -/
theorem bytes_after_eof :
    ¬ NoLateBytes 4096 closeThenWrite [(0, id), (1, id), (2, id), (3, id)] ∧
      ¬ EofSticks 4096 closeThenWrite [(0, id), (1, id), (2, id), (3, id)] := by
  constructor
  · intro h
    have hnone := h [(0, id)] 2 (by simp) ⟨0, rfl, rfl⟩ rfl
    exact absurd hnone (by decide)
  · intro h
    have hidle : (pipeAfter 4096 closeThenWrite [(0, id), (1, id)]).pc 3 = .idle := by decide
    have hnone := h [(0, id), (1, id)] 3 [7] (by simp) ⟨1, 1, rfl, by decide, by decide⟩
      (fun r => by rw [hidle]; exact PipePc.noConfusion) (by decide)
    cases hnone

end OsSimulator.Analysis
