import OsSimulator.Model.Pipe

/-!
# What a step of a pipe call can do

`PipeMove` lists the moves: a `Write` appends as many of its bytes as fit and then waits or
returns, a `Read` waits or takes what there is up to its length, the two closing calls set
their flag.  Beside its own position a call can only wake others.  Every step is one of these
moves (`step_moves`), and all properties of runs are derived from them.
-/

set_option autoImplicit false

namespace OsSimulator.Interface

open Model

/-! ## Views of calls and events -/

/-- The bytes a call wants to write. -/
def callData : PipeCall → List UInt8
  | .write data => data
  | _ => []

/-- How many bytes a `Write` has appended, by its own account. -/
def writtenAt : PipePc → ℕ
  | .idle => 0
  | .parked written => written
  | .woken written => written
  | .returned (.wrote n _) => n
  | .returned _ => 0

/-- What a `Read` has returned. -/
def bytesAt : PipePc → List UInt8
  | .returned (.read bytes) => bytes
  | _ => []

/-- The call can take the lock. -/
def Active (pc : PipePc) : Prop := pc = .idle ∨ ∃ written, pc = .woken written

section Views

variable {T : Type*} [DecidableEq T]

def appendedBytes (events : List (PipeEvent T)) : List UInt8 :=
  events.flatMap fun
    | .appended _ b => [b]
    | .delivered _ _ => []

def deliveredBytes (events : List (PipeEvent T)) : List UInt8 :=
  events.flatMap fun
    | .appended _ _ => []
    | .delivered _ bytes => bytes

/-- The bytes that call `t` appended. -/
def appendedBy (t : T) (events : List (PipeEvent T)) : List UInt8 :=
  events.flatMap fun
    | .appended u b => if u = t then [b] else []
    | .delivered _ _ => []

/-- The bytes delivered to call `t`. -/
def deliveredBy (t : T) (events : List (PipeEvent T)) : List UInt8 :=
  events.flatMap fun
    | .appended _ _ => []
    | .delivered u bytes => if u = t then bytes else []

end Views

theorem writtenAt_wake (pc : PipePc) : writtenAt pc.wake = writtenAt pc := by
  cases pc <;> rfl

theorem bytesAt_wake (pc : PipePc) : bytesAt pc.wake = bytesAt pc := by
  cases pc <;> rfl

/-! ## Moves -/

/-- The bytes of `rest` that a `Write` appends before it waits or returns. -/
def fitting (p : UnixPipe) (rest : List UInt8) : List UInt8 :=
  if p.readClosed then [] else rest.take (p.capacity - p.buffer.length)

def appendAll (p : UnixPipe) (bytes : List UInt8) : UnixPipe :=
  { p with buffer := p.buffer ++ bytes, totalWritten := p.totalWritten + bytes.length }

def takeFront (p : UnixPipe) (n : ℕ) : UnixPipe :=
  { p with buffer := p.buffer.drop n, totalRead := p.totalRead + n }

theorem appendAll_nil (p : UnixPipe) : appendAll p [] = p := by
  unfold appendAll
  rw [List.append_nil]
  rfl

theorem appendAll_cons (p : UnixPipe) (b : UInt8) (bytes : List UInt8) :
    appendAll (appendAll p [b]) bytes = appendAll p (b :: bytes) := by
  unfold appendAll
  simp only [List.append_assoc, List.singleton_append, List.length_cons, List.length_nil,
    Nat.zero_add, Nat.add_assoc, Nat.add_comm 1]

/-- Nothing is appended when the buffer is full or the read end is closed. -/
theorem fitting_eq_nil {p : UnixPipe} (h : p.readClosed = true ∨ p.capacity ≤ p.buffer.length)
    (rest : List UInt8) : fitting p rest = [] := by
  unfold fitting
  rcases h with h | h
  · rw [if_pos h]
  · rw [Nat.sub_eq_zero_of_le h, List.take_zero]
    split <;> rfl

theorem fitting_cons {p : UnixPipe} (hopen : p.readClosed = false)
    (hroom : p.buffer.length < p.capacity) (b : UInt8) (rest : List UInt8) :
    fitting p (b :: rest) = b :: fitting (appendAll p [b]) rest := by
  have hsub : p.capacity - p.buffer.length = p.capacity - (p.buffer.length + 1) + 1 := by omega
  unfold fitting appendAll
  simp only [hopen, Bool.false_eq_true, if_false]
  rw [hsub, List.take_succ_cons, List.length_append, List.length_singleton]

theorem fitting_ne_nil_iff (p : UnixPipe) (rest : List UInt8) :
    fitting p rest ≠ [] ↔ rest ≠ [] ∧ p.readClosed = false ∧ p.buffer.length < p.capacity := by
  unfold fitting
  cases p.readClosed with
  | true => simp
  | false =>
    rw [if_neg Bool.false_ne_true, Ne, List.take_eq_nil_iff]
    constructor
    · intro h
      exact ⟨fun hrest => h (.inr hrest), rfl, by omega⟩
    · rintro ⟨hrest, -, hroom⟩ (h | h)
      · omega
      · exact hrest h

theorem length_fitting_le (p : UnixPipe) (rest : List UInt8) :
    (fitting p rest).length ≤ rest.length ∧
      (fitting p rest).length ≤ p.capacity - p.buffer.length := by
  unfold fitting
  split
  · exact ⟨Nat.zero_le _, Nat.zero_le _⟩
  · rw [List.length_take]
    omega

theorem fitting_eq_take (p : UnixPipe) (rest : List UInt8) :
    fitting p rest = rest.take (fitting p rest).length := by
  unfold fitting
  split
  · rfl
  · rw [List.length_take, ← List.take_eq_take_min]

section Moves

variable {T : Type*}

/-- The calls other than `t` stay where they are, or are woken. -/
def OnlyWakes (t : T) (s s' : PipeSystem T) : Prop :=
  ∀ u, u ≠ t → s'.pc u = s.pc u ∨ s'.pc u = (s.pc u).wake

/-- Call `t` has appended what fits of `rest`, after `written` bytes in earlier steps. -/
structure Wrote (t : T) (rest : List UInt8) (written : ℕ) (s s' : PipeSystem T)
    (events : List (PipeEvent T)) : Prop where
  events_eq : events = (fitting s.toUnixPipe rest).map (.appended t)
  pipe_eq : s'.toUnixPipe = appendAll s.toUnixPipe (fitting s.toUnixPipe rest)
  written_eq : writtenAt (s'.pc t) = written + (fitting s.toUnixPipe rest).length
  bytes_eq : bytesAt (s'.pc t) = []
  others : OnlyWakes t s s'

/-- What a step of call `t` can do, with the events it adds. -/
inductive PipeMove (call : T → PipeCall) (t : T) (s : PipeSystem T) :
    PipeSystem T → List (PipeEvent T) → Prop where
  | stays (blocked : ∀ data, call t = .write data → ¬ Active (s.pc t)) : PipeMove call t s s []
  | writes {s' : PipeSystem T} {events : List (PipeEvent T)} {data : List UInt8}
      (call_eq : call t = .write data) (active : Active (s.pc t))
      (wrote : Wrote t (data.drop (writtenAt (s.pc t))) (writtenAt (s.pc t)) s s' events) :
      PipeMove call t s s' events
  | waits {s' : PipeSystem T} {len : ℕ} (call_eq : call t = .read len) (active : Active (s.pc t))
      (empty : s.buffer = []) (still_open : s.writeClosed = false)
      (pipe_eq : s'.toUnixPipe = s.toUnixPipe) (pc_eq : s'.pc t = .parked 0)
      (others : OnlyWakes t s s') : PipeMove call t s s' []
  | reads {s' : PipeSystem T} {len n : ℕ} (call_eq : call t = .read len) (active : Active (s.pc t))
      (n_eq : n = min len s.buffer.length) (ready : s.buffer ≠ [] ∨ s.writeClosed = true)
      (pipe_eq : s'.toUnixPipe = takeFront s.toUnixPipe n)
      (pc_eq : s'.pc t = .returned (.read (s.buffer.take n))) (others : OnlyWakes t s s') :
      PipeMove call t s s' [.delivered t (s.buffer.take n)]
  | closesWrite {s' : PipeSystem T} (call_eq : call t = .closeWrite) (idle : s.pc t = .idle)
      (pipe_eq : s'.toUnixPipe = { s.toUnixPipe with writeClosed := true })
      (pc_eq : s'.pc t = .returned .closed) (others : OnlyWakes t s s') : PipeMove call t s s' []
  | closesRead {s' : PipeSystem T} (call_eq : call t = .closeRead) (idle : s.pc t = .idle)
      (pipe_eq : s'.toUnixPipe = { s.toUnixPipe with readClosed := true })
      (pc_eq : s'.pc t = .returned .closed) (others : OnlyWakes t s s') : PipeMove call t s s' []

theorem wake_wake (pc : PipePc) : pc.wake.wake = pc.wake := by
  cases pc <;> rfl

variable {s s' : PipeSystem T}

theorem OnlyWakes.views {t u : T} (h : OnlyWakes t s s') (hu : u ≠ t) :
    writtenAt (s'.pc u) = writtenAt (s.pc u) ∧ bytesAt (s'.pc u) = bytesAt (s.pc u) := by
  rcases h u hu with h | h
  · rw [h]
    exact ⟨rfl, rfl⟩
  · rw [h, writtenAt_wake, bytesAt_wake]
    exact ⟨rfl, rfl⟩

theorem OnlyWakes.trans {t : T} {s s' s'' : PipeSystem T} (h : OnlyWakes t s s')
    (h' : OnlyWakes t s' s'') : OnlyWakes t s s'' := by
  intro u hu
  rcases h u hu with h | h <;> rcases h' u hu with h' | h'
  · exact .inl (h'.trans h)
  · exact .inr (h'.trans (by rw [h]))
  · exact .inr (h'.trans h)
  · exact .inr (h'.trans (by rw [h, wake_wake]))

theorem wake_eq_returned {pc : PipePc} {r : PipeReply} (h : pc.wake = .returned r) :
    pc = .returned r := by
  cases pc with
  | idle => cases h
  | parked written => cases h
  | woken written => cases h
  | returned r' => exact h

/-- A call that has returned and was not moved had returned before. -/
theorem OnlyWakes.returned {t u : T} (h : OnlyWakes t s s') (hu : u ≠ t) {r : PipeReply}
    (hr : s'.pc u = .returned r) : s.pc u = .returned r := by
  rcases h u hu with h | h
  · exact h.symm.trans hr
  · exact wake_eq_returned (h.symm.trans hr)

theorem PipeMove.others {call : T → PipeCall} {t : T} {new : List (PipeEvent T)}
    (hmove : PipeMove call t s s' new) : OnlyWakes t s s' := by
  cases hmove with
  | stays _ => exact fun u _ => .inl rfl
  | writes _ _ hwrote => exact hwrote.others
  | waits _ _ _ _ _ _ hothers => exact hothers
  | reads _ _ _ _ _ _ hothers => exact hothers
  | closesWrite _ _ _ _ hothers => exact hothers
  | closesRead _ _ _ _ hothers => exact hothers

theorem PipeMove.capacity_eq {call : T → PipeCall} {t : T} {new : List (PipeEvent T)}
    (hmove : PipeMove call t s s' new) : s'.capacity = s.capacity := by
  cases hmove with
  | stays _ => rfl
  | writes _ _ hwrote =>
    rw [hwrote.pipe_eq]
    rfl
  | waits _ _ _ _ hpipe => rw [hpipe]
  | reads _ _ _ _ hpipe =>
    rw [hpipe]
    rfl
  | closesWrite _ _ hpipe => rw [hpipe]
  | closesRead _ _ hpipe => rw [hpipe]

variable [DecidableEq T] {call : T → PipeCall} {t : T} {s s' : PipeSystem T} {pick : ℕ → ℕ}

/-- After waking some calls and moving `t`, the others were only woken. -/
theorem onlyWakes_update {ts : List T} {pc' : PipePc}
    (h : s'.pc = Function.update (wakeThreads PipePc.wake ts s.pc) t pc') : OnlyWakes t s s' := by
  intro u hu
  rw [h, Function.update_of_ne hu]
  exact wakeThreads_cases _ ts s.pc u

theorem onlyWakes_self {pc' : PipePc} (h : s'.pc = Function.update s.pc t pc') :
    OnlyWakes t s s' := by
  intro u hu
  rw [h, Function.update_of_ne hu]
  exact .inl rfl

/-- A `Write` that appends nothing and only moves itself. -/
theorem wrote_nothing {rest : List UInt8} {written : ℕ} {pc' : PipePc}
    (hfit : fitting s.toUnixPipe rest = []) (hpipe : s'.toUnixPipe = s.toUnixPipe)
    (hpc : s'.pc = Function.update s.pc t pc') (hwritten : writtenAt pc' = written)
    (hbytes : bytesAt pc' = []) : Wrote t rest written s s' [] := by
  have hself : s'.pc t = pc' := by rw [hpc, Function.update_self]
  refine ⟨?_, ?_, ?_, ?_, onlyWakes_self hpc⟩
  · rw [hfit]
    rfl
  · rw [hfit, appendAll_nil, hpipe]
  · rw [hfit, hself, hwritten]
    rfl
  · rw [hself, hbytes]

/-- **The loop of `Write`** appends what fits. -/
theorem writeLoop_spec (rest : List UInt8) (written : ℕ) (s : PipeSystem T) :
    Wrote t rest written s (s.writeLoop t pick rest written).1
      (s.writeLoop t pick rest written).2 := by
  induction rest generalizing written s with
  | nil =>
    have hfit : fitting s.toUnixPipe [] = [] := by
      unfold fitting
      rw [List.take_nil, ite_self]
    exact wrote_nothing hfit rfl rfl rfl rfl
  | cons b rest ih =>
    unfold PipeSystem.writeLoop
    by_cases hfull : s.buffer.length ≥ s.capacity ∧ s.readClosed = false
    · rw [if_pos hfull]
      exact wrote_nothing (fitting_eq_nil (.inr hfull.1) _) rfl rfl rfl rfl
    · rw [if_neg hfull]
      cases hclosed : s.readClosed with
      | true =>
        rw [if_pos rfl]
        exact wrote_nothing (fitting_eq_nil (.inl hclosed) _) rfl rfl rfl rfl
      | false =>
        have hroom : s.buffer.length < s.capacity := by
          by_contra hle
          exact hfull ⟨Nat.not_lt.mp hle, hclosed⟩
        obtain ⟨hevents, hpipe, hwritten, hbytes, hothers⟩ :=
          ih (written + 1) (s.appendByte b pick)
        have happend : (s.appendByte b pick).toUnixPipe = appendAll s.toUnixPipe [b] := rfl
        rw [happend] at hevents hpipe hwritten
        rw [if_neg Bool.false_ne_true]
        have hfit := fitting_cons hclosed hroom b rest
        refine ⟨?_, ?_, ?_, hbytes, ?_⟩
        · rw [hfit, List.map_cons]
          exact congrArg _ hevents
        · rw [hfit, ← appendAll_cons]
          exact hpipe
        · rw [hfit, List.length_cons]
          exact hwritten.trans (by omega)
        · refine OnlyWakes.trans ?_ hothers
          intro u _
          exact wakeThreads_cases _ _ s.pc u

theorem beginWrite_spec (data : List UInt8) (s : PipeSystem T) :
    Wrote t data 0 s (s.beginWrite t pick data).1 (s.beginWrite t pick data).2 := by
  unfold PipeSystem.beginWrite
  cases hclosed : s.readClosed with
  | true =>
    rw [if_pos rfl]
    exact wrote_nothing (fitting_eq_nil (.inl hclosed) _) rfl rfl rfl rfl
  | false =>
    rw [if_neg Bool.false_ne_true]
    exact writeLoop_spec data 0 s

theorem readSection_moves {len : ℕ} (hcall : call t = .read len) (hactive : Active (s.pc t)) :
    PipeMove call t s (s.readSection t pick len).1 (s.readSection t pick len).2 := by
  unfold PipeSystem.readSection
  by_cases hwait : s.buffer.length = 0 ∧ s.writeClosed = false
  · rw [if_pos hwait]
    exact .waits hcall hactive (List.eq_nil_of_length_eq_zero hwait.1) hwait.2 rfl
      (Function.update_self ..) (onlyWakes_self rfl)
  · rw [if_neg hwait]
    by_cases heof : s.buffer.length = 0 ∧ s.writeClosed = true
    · rw [if_pos heof]
      have hread : PipeMove call t s (s.reply t (.read [])) [.delivered t (s.buffer.take 0)] :=
        .reads hcall hactive (by rw [heof.1, Nat.min_zero]) (.inr heof.2) rfl
          (Function.update_self ..) (onlyWakes_self rfl)
      exact hread
    · rw [if_neg heof]
      have hready : s.buffer ≠ [] := by
        intro hnil
        cases hclosed : s.writeClosed with
        | false => exact hwait ⟨by rw [hnil]; rfl, hclosed⟩
        | true => exact heof ⟨by rw [hnil]; rfl, hclosed⟩
      have hcount : (if len > s.buffer.length then s.buffer.length else len) =
          min len s.buffer.length := by
        split <;> omega
      exact .reads hcall hactive hcount (.inl hready) rfl (Function.update_self ..)
        (onlyWakes_update rfl)

/-- **Every step is a move.** -/
theorem step_moves (call : T → PipeCall) (t : T) (pick : ℕ → ℕ) (s : PipeSystem T) :
    PipeMove call t s (s.step call t pick).1 (s.step call t pick).2 := by
  have hstay : ∀ {pc}, s.pc t = pc → ¬ Active pc → PipeMove call t s s [] := by
    rintro _ rfl hblocked
    exact .stays fun _ _ => hblocked
  unfold PipeSystem.step
  cases hpc : s.pc t with
  | idle =>
    have hactive : Active (s.pc t) := .inl hpc
    cases hcall : call t with
    | write data =>
      refine .writes hcall hactive ?_
      rw [hpc]
      exact beginWrite_spec data s
    | read len => exact readSection_moves hcall hactive
    | closeWrite =>
      exact .closesWrite hcall hpc rfl (Function.update_self ..) (onlyWakes_update rfl)
    | closeRead =>
      exact .closesRead hcall hpc rfl (Function.update_self ..) (onlyWakes_update rfl)
  | woken written =>
    have hactive : Active (s.pc t) := .inr ⟨written, hpc⟩
    cases hcall : call t with
    | write data =>
      refine .writes hcall hactive ?_
      rw [hpc]
      exact writeLoop_spec _ written s
    | read len => exact readSection_moves hcall hactive
    | closeWrite => exact .stays fun data hdata => absurd (hcall.symm.trans hdata) (by simp)
    | closeRead => exact .stays fun data hdata => absurd (hcall.symm.trans hdata) (by simp)
  | parked written => exact hstay hpc (by rintro (h | ⟨_, h⟩) <;> cases h)
  | returned r => exact hstay hpc (by rintro (h | ⟨_, h⟩) <;> cases h)

end Moves

end OsSimulator.Interface
