import OsSimulator.Model.Semaphore

/-!
# What a step of a semaphore caller can do

`SemaphoreMove` lists the moves: a `Wait` passes or joins the queue, a `Signal` lets the first of
the queue go or finds nobody, a channel is closed, a caller comes back from a closed channel.
Every step is one of these moves (`semaphoreStep_moves`).

The views say which critical sections a caller has passed, by where it is.
-/

set_option autoImplicit false

namespace OsSimulator.Interface

open Model

section Views

variable {T : Type*}

/-- The caller is past its last critical section. -/
def SemaphoreDone : SemaphorePc T → Prop
  | .closing _ => True
  | .returned => True
  | .panicked => True
  | _ => False

/-- A `Wait` of the caller has passed its critical section. -/
def PassedWait (call : T → SemaphoreCall) (t : T) (pc : SemaphorePc T) : Prop :=
  call t ≠ .signal ∧ pc ≠ .idle

/-- A `Signal` of the caller has passed its critical section. -/
def PassedSignal (call : T → SemaphoreCall) (t : T) (pc : SemaphorePc T) : Prop :=
  call t ≠ .wait ∧ SemaphoreDone pc

/-- The `Wait` of the caller has returned, or it was released: it has been taken from the queue
and is about to come back. -/
def Admitted (call : T → SemaphoreCall) (s : SemaphoreSystem T) (t : T) : Prop :=
  call t ≠ .signal ∧
    (s.pc t = .inside ∨ SemaphoreDone (s.pc t) ∨ (s.pc t = .parked ∧ t ∉ s.waiters))

/-- How many `Wait`s have passed their critical section. -/
def waitCount (events : List (SemaphoreEvent T)) : ℕ :=
  events.countP fun
    | .waited _ => true
    | _ => false

/-- How many `Signal`s have passed their critical section. -/
def signalCount (events : List (SemaphoreEvent T)) : ℕ :=
  events.countP fun
    | .signalled _ => true
    | _ => false

/-- The callers that were queued, in this order. -/
def enqueuedCalls (events : List (SemaphoreEvent T)) : List T :=
  events.filterMap fun
    | .enqueued t => some t
    | _ => none

/-- The callers that were released, in this order. -/
def releasedCalls (events : List (SemaphoreEvent T)) : List T :=
  events.filterMap fun
    | .released t => some t
    | _ => none

end Views

section Moves

variable {T : Type*} [DecidableEq T]

/-- The next step of the caller is the critical section of its `Signal`. -/
def Signalling (call : T → SemaphoreCall) (s : SemaphoreSystem T) (t : T) : Prop :=
  (s.pc t = .idle ∧ call t = .signal) ∨ s.pc t = .inside

/-- What a step of caller `t` can do, with the events it adds. -/
inductive SemaphoreMove (call : T → SemaphoreCall) (t : T) (s : SemaphoreSystem T) :
    SemaphoreSystem T → List (SemaphoreEvent T) → Prop where
  | stays : SemaphoreMove call t s s []
  | passes (waits : call t ≠ .signal) (idle : s.pc t = .idle) (free : ¬ s.value - 1 < 0) :
      SemaphoreMove call t s
        { s with value := s.value - 1, pc := Function.update s.pc t (call t).afterWait }
        [.waited t]
  | blocks (waits : call t ≠ .signal) (idle : s.pc t = .idle) (taken : s.value - 1 < 0) :
      SemaphoreMove call t s
        { s with
          value := s.value - 1
          waiters := s.waiters ++ [t]
          pc := Function.update s.pc t .parked } [.waited t, .enqueued t]
  | resumes (parked : s.pc t = .parked) (closed : t ∈ s.closed) :
      SemaphoreMove call t s { s with pc := Function.update s.pc t (call t).afterWait } []
  | signals (ready : Signalling call s t) (empty : s.waiters = []) :
      SemaphoreMove call t s
        { s with value := s.value + 1, pc := Function.update s.pc t .returned } [.signalled t]
  | releases {ch : T} {rest : List T} (ready : Signalling call s t)
      (queue : s.waiters = ch :: rest) :
      SemaphoreMove call t s
        { s with
          value := s.value + 1
          waiters := rest
          pc := Function.update s.pc t (.closing ch) } [.signalled t, .released ch]
  | closes {ch : T} (closing : s.pc t = .closing ch) (still_open : ch ∉ s.closed) :
      SemaphoreMove call t s
        { s with closed := insert ch s.closed, pc := Function.update s.pc t .returned } []
  | panics {ch : T} (closing : s.pc t = .closing ch) (already : ch ∈ s.closed) :
      SemaphoreMove call t s { s with pc := Function.update s.pc t .panicked } []

variable {call : T → SemaphoreCall} {t : T} {s : SemaphoreSystem T}

theorem waitSection_moves (hwaits : call t ≠ .signal) (hidle : s.pc t = .idle) :
    SemaphoreMove call t s (s.waitSection call t).1 (s.waitSection call t).2 := by
  unfold SemaphoreSystem.waitSection
  dsimp only
  split
  · rename_i htaken
    exact .blocks hwaits hidle htaken
  · rename_i hfree
    exact .passes hwaits hidle hfree

theorem signalSection_moves (hready : Signalling call s t) :
    SemaphoreMove call t s (s.signalSection t).1 (s.signalSection t).2 := by
  unfold SemaphoreSystem.signalSection
  split
  · rename_i ch rest hqueue
    exact .releases hready hqueue
  · rename_i hqueue
    exact .signals hready hqueue

theorem close_moves {ch : T} (hclosing : s.pc t = .closing ch) :
    SemaphoreMove call t s (s.close ch t) [] := by
  unfold SemaphoreSystem.close
  split
  · rename_i halready
    exact .panics hclosing halready
  · rename_i hopen
    exact .closes hclosing hopen

/-- **Every step is a move.** -/
theorem semaphoreStep_moves (call : T → SemaphoreCall) (t : T) (s : SemaphoreSystem T) :
    SemaphoreMove call t s (s.step call t).1 (s.step call t).2 := by
  unfold SemaphoreSystem.step
  cases hpc : s.pc t with
  | idle =>
    cases hcall : call t with
    | wait => exact waitSection_moves (by simp [hcall]) hpc
    | sync => exact waitSection_moves (by simp [hcall]) hpc
    | signal => exact signalSection_moves (.inl ⟨hpc, hcall⟩)
  | parked =>
    dsimp only
    split
    · rename_i hclosed
      exact .resumes hpc hclosed
    · exact .stays
  | inside => exact signalSection_moves (.inr hpc)
  | closing ch => exact close_moves hpc
  | returned => exact .stays
  | panicked => exact .stays

end Moves

end OsSimulator.Interface
