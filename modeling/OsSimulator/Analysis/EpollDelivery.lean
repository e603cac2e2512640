import OsSimulator.Interface.EpollCalls
import OsSimulator.Model.EpollThreads

/-!
# Delivery of epoll events to many waiting threads

Every accepted event is handed out once and in order: what was taken, followed by the ready list, is
what was accepted, after every step (`step_ledger`).

Nobody need come for an event, though.  The channel has one place, so that two interrupts may leave
one token; the thread that receives it takes no more than its `maxEvents` events, and sends no token
for the rest.  Another thread in its `select` then sleeps beside a ready list that is not empty, and
ends in its timeout branch (`timeout_beside_event`).  In exactly the runs in which no token is
dropped this way (`DropsToken`), whoever times out at a quiet moment finds the ready list empty.

At a moment that is not quiet the timeout branch may be taken beside an event in any case: while an
interrupt has not sent its token yet, while the token lies in the channel (`select` takes either
branch), and while its receiver is on the way to the mutex.

Calls that nobody disturbs are the whole calls of `OsSimulator.Model.Epoll` (`undisturbed_notify`,
`undisturbed_wait`).
-/

set_option autoImplicit false

namespace OsSimulator.Analysis

open Model Interface Library

section EpollDelivery

variable {D T : Type*}

/-! ## The specification -/

/-- The concatenation of all lists returned. -/
def takenEvents (reports : List (EpollReport D)) : List (EpollEvent D) :=
  reports.flatMap fun
    | .taken returned => returned
    | _ => []

/-- The notifications of registered descriptors. -/
def acceptedEvents (reports : List (EpollReport D)) : List (EpollEvent D) :=
  reports.flatMap fun
    | .accepted ev => [ev]
    | _ => []

/-- The thread is about to send a token, or to look at the ready list because of one. -/
def Attending : EpollPc → Prop
  | .woken _ => True
  | .sending => True
  | _ => False

/-- Neither is there a token, nor a thread that has one or is about to send one. -/
def Quiet (s : EpollThreads D T) : Prop :=
  s.ep.wakeCh = false ∧ ∀ t, ¬ Attending (s.pc t)

/-- The thread sleeps beside an event, and nobody is about to wake it. -/
def SleepsOnEvent (s : EpollThreads D T) (t : T) : Prop :=
  (∃ maxEvents, s.pc t = .selecting maxEvents) ∧ Quiet s ∧ s.ep.readyList ≠ []

/-- A woken thread takes its events. -/
def TakesWoken (s : EpollThreads D T) (move : T × EpollAction D) (maxEvents : ℤ) : Prop :=
  s.pc move.1 = .woken maxEvents ∧ s.holder = none ∧ ∃ timedOut, move.2 = .resume timedOut

/-- A woken thread leaves events behind, while another thread sleeps, there is no token and no third
thread that has one or is about to send one. -/
def DropsToken (s : EpollThreads D T) (move : T × EpollAction D) : Prop :=
  ∃ maxEvents, TakesWoken s move maxEvents ∧ maxEvents < s.ep.readyList.length ∧
    s.ep.readyList ≠ [] ∧ s.ep.wakeCh = false ∧ (∀ u, u ≠ move.1 → ¬ Attending (s.pc u)) ∧
    ∃ u m, s.pc u = .selecting m

/-! ## What a step does -/

variable [DecidableEq D] [DecidableEq T]

/-- In this step an `EpollWait` returns through its timeout branch. -/
def TimesOut (s : EpollThreads D T) (move : T × EpollAction D) : Prop :=
  .timedOut ∈ (s.step move).2

/-- What a step can do, with what is known when it is taken. -/
inductive EpollMove (move : T × EpollAction D) (s : EpollThreads D T) :
    EpollThreads D T × List (EpollReport D) → Prop
  | stay (htakes : ∀ m, ¬ TakesWoken s move m) : EpollMove move s (s, [])
  | takeFirst (m : ℤ) (hpc : s.pc move.1 = .idle) (hcall : move.2 = .wait m) :
      EpollMove move s (s.take move.1 m)
  | sleep (m : ℤ) (hpc : s.pc move.1 = .idle) (hcall : move.2 = .wait m)
      (hready : s.ep.readyList = []) :
      EpollMove move s ({ s with pc := Function.update s.pc move.1 (.selecting m) }, [])
  | ctl (hpc : s.pc move.1 = .idle) (interest : ℤ → Option (Option (EpollEvent D))) :
      EpollMove move s ({ s with ep := { s.ep with interestList := interest } }, [])
  | accept (d : D) (events : UInt32) (hpc : s.pc move.1 = .idle) :
      EpollMove move s
        ({ s with
            ep := s.ep.pushReady d events
            fds := Epoll.markReady d s.fds
            holder := some move.1
            pc := Function.update s.pc move.1 .sending }, [.accepted { events, fd := d }])
  | timeOut (m : ℤ) (hpc : s.pc move.1 = .selecting m) :
      EpollMove move s ({ s with pc := Function.update s.pc move.1 .idle }, [.timedOut])
  | wake (m : ℤ) (hpc : s.pc move.1 = .selecting m) :
      EpollMove move s
        ({ s with
            ep := { s.ep with wakeCh := false }
            pc := Function.update s.pc move.1 (.woken m) }, [])
  | takeWoken (m : ℤ) (htakes : TakesWoken s move m) : EpollMove move s (s.take move.1 m)
  | send (hpc : s.pc move.1 = .sending) : EpollMove move s (s.send move.1)

/-- **Every step is one of these.** -/
theorem step_move (move : T × EpollAction D) (s : EpollThreads D T) :
    EpollMove move s (s.step move) := by
  obtain ⟨t, action⟩ := move
  unfold EpollThreads.step
  dsimp only
  split
  case h_1 m hpc _ =>
      unfold EpollThreads.wait
      split
      · exact .takeFirst m hpc rfl
      · exact .sleep m hpc rfl (List.eq_nil_of_length_eq_zero (by omega))
  case h_2 op d event hpc _ =>
      obtain ⟨interest, heq⟩ := epollCtl_frame op (s.fds d) event s.ep
      rw [heq]
      exact .ctl hpc interest
  case h_3 d events hpc _ =>
      unfold EpollThreads.notify
      split
      · exact .accept d events hpc
      · exact .stay fun m h => by cases hpc.symm.trans h.1
  case h_4 m timedOut hpc =>
      unfold EpollThreads.select
      split
      · exact .timeOut m hpc
      · split
        · exact .wake m hpc
        · exact .stay fun m h => by cases hpc.symm.trans h.1
  case h_5 m timedOut hpc hholder => exact .takeWoken m ⟨hpc, hholder, timedOut, rfl⟩
  case h_6 timedOut hpc => exact .send hpc
  case h_7 hwoken =>
      refine .stay fun m h => ?_
      obtain ⟨hpc, hholder, timedOut, hcall⟩ := h
      exact hwoken m timedOut hpc hcall hholder

/-! ## The ledger -/

/-- Taking hands out a front part of the ready list, and leaves events exactly if there are more
than `maxEvents`; the thread is at rest after it. -/
structure TakeEffect (t : T) (maxEvents : ℤ) (s : EpollThreads D T)
    (r : EpollThreads D T × List (EpollReport D)) : Prop where
  rest : ∃ pc', r.1.pc = Function.update s.pc t pc' ∧ (pc' = .idle ∨ pc' = .panicked)
  wakeCh_eq : r.1.ep.wakeCh = s.ep.wakeCh
  ledger : takenEvents r.2 ++ r.1.ep.readyList = s.ep.readyList ++ acceptedEvents r.2
  left_iff : r.1.ep.readyList ≠ [] ↔ maxEvents < s.ep.readyList.length ∧ s.ep.readyList ≠ []

omit [DecidableEq D] in
theorem take_effect (t : T) (maxEvents : ℤ) (s : EpollThreads D T) :
    TakeEffect t maxEvents s (s.take t maxEvents) := by
  unfold EpollThreads.take
  rcases Int.lt_or_le maxEvents 0 with hneg | hnonneg
  · rw [takeReady_negative hneg]
    refine ⟨⟨_, rfl, .inr rfl⟩, rfl, (List.append_nil _).symm, ?_⟩
    exact (and_iff_right (by omega)).symm
  · rw [takeReady_nonneg hnonneg]
    refine ⟨⟨_, rfl, .inl rfl⟩, rfl, ?_, ?_⟩
    · simp [takenEvents, acceptedEvents]
    · simp only [ne_eq, ← List.length_eq_zero_iff, List.length_drop]
      omega

omit [DecidableEq D] in
theorem timedOut_notMem_take (t : T) (maxEvents : ℤ) (s : EpollThreads D T) :
    .timedOut ∉ (s.take t maxEvents).2 := by
  unfold EpollThreads.take
  split <;> simp

variable {move : T × EpollAction D} {s : EpollThreads D T}
  {r : EpollThreads D T × List (EpollReport D)}

/-- Only a thread in its `select` times out. -/
theorem TimesOut.selecting (h : TimesOut s move) : ∃ m, s.pc move.1 = .selecting m := by
  unfold TimesOut at h
  have hmove := step_move move s
  generalize s.step move = r at h hmove
  cases hmove with
  | timeOut m hpc => exact ⟨m, hpc⟩
  | takeFirst m | takeWoken m => exact absurd h (timedOut_notMem_take _ m s)
  | accept => simp at h
  | stay | sleep | ctl | wake | send => cases h

/-- Events taken or left were there before or are newly accepted. -/
theorem EpollMove.ledger (h : EpollMove move s r) :
    takenEvents r.2 ++ r.1.ep.readyList = s.ep.readyList ++ acceptedEvents r.2 := by
  cases h with
  | takeFirst m => exact (take_effect move.1 m s).ledger
  | takeWoken m => exact (take_effect move.1 m s).ledger
  | accept => rfl
  | stay | sleep | ctl | timeOut | wake | send => exact (List.append_nil _).symm

/-! ## Sleeping beside an event -/

variable {returned : List (EpollEvent D)} {s' : EpollThreads D T} {timedOut : Bool} {ep : Epoll D}
  {m : ℤ} {t : T}

omit [DecidableEq D] in
/-- After a step in which thread `t` comes to rest. -/
theorem sleeps_at_rest {pc' : EpollPc} (hpc : s'.pc = Function.update s.pc t pc')
    (hrest : pc' = .idle ∨ pc' = .panicked) :
    (∃ u, SleepsOnEvent s' u) ↔ s'.ep.readyList ≠ [] ∧ s'.ep.wakeCh = false ∧
      (∀ u, u ≠ t → ¬ Attending (s.pc u)) ∧ ∃ u m, u ≠ t ∧ s.pc u = .selecting m := by
  have hself : s'.pc t = pc' := by rw [hpc, Function.update_self]
  have hother : ∀ u, u ≠ t → s'.pc u = s.pc u := fun u hu => by
    rw [hpc, Function.update_of_ne hu]
  constructor
  · rintro ⟨u, ⟨m, hu⟩, ⟨hwake, hatt⟩, hready⟩
    have hut : u ≠ t := by
      rintro rfl
      rw [hself] at hu
      rcases hrest with rfl | rfl <;> cases hu
    refine ⟨hready, hwake, fun v hv => ?_, u, m, hut, ?_⟩
    · rw [← hother v hv]
      exact hatt v
    · rw [← hother u hut, hu]
  · rintro ⟨hready, hwake, hatt, u, m, hut, hu⟩
    refine ⟨u, ⟨m, (hother u hut).trans hu⟩, ⟨hwake, fun v => ?_⟩, hready⟩
    by_cases hv : v = t
    · rw [hv, hself]
      rcases hrest with rfl | rfl <;> exact not_false
    · rw [hother v hv]
      exact hatt v hv

omit [DecidableEq D] in
/-- A thread that was not attending comes to rest, and no event and no token is added or removed but
for events that were taken. -/
theorem sleeps_of_rest {pc' : EpollPc} (h : ∃ u, SleepsOnEvent s' u)
    (hpc : s'.pc = Function.update s.pc t pc') (hrest : pc' = .idle ∨ pc' = .panicked)
    (hidle : ¬ Attending (s.pc t)) (hwake : s'.ep.wakeCh = s.ep.wakeCh)
    (hready : s'.ep.readyList ≠ [] → s.ep.readyList ≠ []) : ∃ u, SleepsOnEvent s u := by
  obtain ⟨hne, hquiet, hatt, u, m, -, hu⟩ := (sleeps_at_rest hpc hrest).mp h
  refine ⟨u, ⟨m, hu⟩, ⟨hwake.symm.trans hquiet, fun v => ?_⟩, hready hne⟩
  by_cases hv : v = t
  · rw [hv]
    exact hidle
  · exact hatt v hv

omit [DecidableEq D] [DecidableEq T] in
/-- Nobody sleeps in vain while some thread is attending. -/
theorem not_sleeps_of_attending (ht : Attending (s.pc t)) : ¬ ∃ u, SleepsOnEvent s u :=
  fun ⟨_, _, ⟨_, hatt⟩, _⟩ => hatt t ht

omit [DecidableEq D] [DecidableEq T] in
theorem not_dropsToken {pc : EpollPc} (hpc : s.pc move.1 = pc) (hwoken : ∀ m, pc ≠ .woken m) :
    ¬ DropsToken s move :=
  fun ⟨m, htakes, _⟩ => hwoken m (hpc.symm.trans htakes.1)

omit [DecidableEq D] in
/-- What a woken thread leaves behind. -/
theorem sleeps_take_iff (htakes : TakesWoken s move m) :
    (∃ u, SleepsOnEvent (s.take move.1 m).1 u) ↔ DropsToken s move := by
  obtain ⟨⟨pc', hpc, hrest⟩, hwake, -, hleft⟩ := take_effect move.1 m s
  rw [sleeps_at_rest hpc hrest, hwake, hleft]
  constructor
  · rintro ⟨⟨hmore, hne⟩, hquiet, hatt, u, m', -, hu⟩
    exact ⟨m, htakes, hmore, hne, hquiet, hatt, u, m', hu⟩
  · rintro ⟨m₂, htakes₂, hmore, hne, hquiet, hatt, u, m', hu⟩
    have hm : m₂ = m := by cases htakes₂.1.symm.trans htakes.1; rfl
    refine ⟨⟨hm ▸ hmore, hne⟩, hquiet, hatt, u, m', ?_, hu⟩
    rintro rfl
    cases hu.symm.trans htakes.1

/-- **A thread falls asleep on an event exactly when a token is dropped.** -/
theorem EpollMove.sleeps_iff (h : EpollMove move s r) (hawake : ¬ ∃ u, SleepsOnEvent s u) :
    (∃ u, SleepsOnEvent r.1 u) ↔ DropsToken s move := by
  cases h with
  | takeWoken m htakes => exact sleeps_take_iff htakes
  | takeFirst m hpc hcall =>
    obtain ⟨⟨pc', hpc', hrest⟩, hwake, -, hleft⟩ := take_effect move.1 m s
    refine iff_of_false (fun h => hawake (sleeps_of_rest h hpc' hrest ?_ hwake ?_)) ?_
    · rw [hpc]
      exact not_false
    · exact fun hne => (hleft.mp hne).2
    · exact not_dropsToken hpc fun m h => by cases h
  | timeOut m hpc =>
    refine iff_of_false (fun h => hawake (sleeps_of_rest h rfl (.inl rfl) ?_ rfl id)) ?_
    · rw [hpc]
      exact not_false
    · exact not_dropsToken hpc fun m h => by cases h
  | stay htakes => exact iff_of_false hawake fun ⟨m, h, _⟩ => htakes m h
  | ctl hpc interest => exact iff_of_false hawake (not_dropsToken hpc fun m h => by cases h)
  | sleep m hpc hcall hready =>
    refine iff_of_false ?_ (not_dropsToken hpc fun m h => by cases h)
    exact fun ⟨u, _, _, hne⟩ => hne hready
  | accept d events hpc =>
    refine iff_of_false (not_sleeps_of_attending (t := move.1) ?_)
      (not_dropsToken hpc fun m h => by cases h)
    show Attending (Function.update s.pc move.1 .sending move.1)
    rw [Function.update_self]
    trivial
  | wake m hpc =>
    refine iff_of_false (not_sleeps_of_attending (t := move.1) ?_)
      (not_dropsToken hpc fun m h => by cases h)
    show Attending (Function.update s.pc move.1 (.woken m) move.1)
    rw [Function.update_self]
    trivial
  | send hpc =>
    refine iff_of_false ?_ (not_dropsToken hpc fun m h => by cases h)
    rintro ⟨u, -, ⟨hwake, -⟩, -⟩
    cases hwake

/-! ## One waiting thread -/

/-- No other thread than `w` is inside of `EpollWait`. -/
def WaitsOnly (w : T) (s : EpollThreads D T) : Prop :=
  ∀ u m, s.pc u = .selecting m ∨ s.pc u = .woken m → u = w

omit [DecidableEq D] in
theorem WaitsOnly.update {w : T} (h : WaitsOnly w s) {pc' : EpollPc}
    (hpc : s'.pc = Function.update s.pc t pc')
    (ht : ∀ m, pc' = .selecting m ∨ pc' = .woken m → t = w) : WaitsOnly w s' := by
  intro u m hu
  rw [hpc] at hu
  by_cases hut : u = t
  · rw [hut, Function.update_self] at hu
    rw [hut]
    exact ht m hu
  · rw [Function.update_of_ne hut] at hu
    exact h u m hu

theorem EpollMove.waitsOnly {w : T} (h : EpollMove move s r) (hw : WaitsOnly w s)
    (hcall : ∀ m, move.2 = .wait m → move.1 = w) : WaitsOnly w r.1 := by
  have htake : ∀ m, WaitsOnly w (s.take move.1 m).1 := by
    intro m
    obtain ⟨pc', hpc', hrest⟩ := (take_effect move.1 m s).rest
    refine hw.update hpc' fun m' h => ?_
    rcases hrest with rfl | rfl <;> rcases h with h | h <;> cases h
  cases h with
  | stay | ctl => exact hw
  | takeFirst m | takeWoken m => exact htake m
  | sleep m hpc hwait => exact hw.update rfl fun _ _ => hcall m hwait
  | wake m hpc => exact hw.update rfl fun _ _ => hw _ m (.inl hpc)
  | accept | timeOut | send =>
    exact hw.update rfl fun m h => by rcases h with h | h <;> cases h

omit [DecidableEq D] [DecidableEq T] in
/-- A token is dropped by one waiting thread at the cost of another. -/
theorem WaitsOnly.not_dropsToken {w : T} (h : WaitsOnly w s) : ¬ DropsToken s move := by
  rintro ⟨m, htakes, -, -, -, -, u, m', hu⟩
  have hsame : u = move.1 := (h u m' (.inl hu)).trans (h move.1 m (.inr htakes.1)).symm
  rw [hsame] at hu
  cases hu.symm.trans htakes.1

/-! ## Whole runs -/

variable {fds : D → FileDescriptor}

theorem run_concat_fst (done : List (T × EpollAction D)) (move : T × EpollAction D) :
    (runEpollThreads fds (done ++ [move])).1 = ((runEpollThreads fds done).1.step move).1 := by
  unfold runEpollThreads
  rw [eventRun_concat]

/-- Along every run, the accepted events are those taken and those left, in order. -/
theorem delivery_ledger (fds : D → FileDescriptor) (schedule : List (T × EpollAction D)) :
    takenEvents (runEpollThreads fds schedule).2 ++
        (runEpollThreads fds schedule).1.ep.readyList =
      acceptedEvents (runEpollThreads fds schedule).2 := by
  refine eventRun_induction (P := fun (s : EpollThreads D T) reports =>
    takenEvents reports ++ s.ep.readyList = acceptedEvents reports) rfl ?_ schedule
  intro s reports move ih
  have hstep := (step_move move s).ledger
  unfold takenEvents acceptedEvents at *
  rw [List.flatMap_append, List.flatMap_append, List.append_assoc, hstep, ← List.append_assoc, ih]

theorem run_waitsOnly {w : T} (schedule : List (T × EpollAction D))
    (hcall : ∀ move ∈ schedule, ∀ m, move.2 = .wait m → move.1 = w) :
    WaitsOnly w (runEpollThreads fds schedule).1 := by
  induction schedule using List.reverseRecOn with
  | nil => exact fun u m h => by rcases h with h | h <;> cases h
  | append_singleton done move ih =>
    rw [run_concat_fst]
    refine (step_move move _).waitsOnly (ih fun a ha => hcall a ?_) (hcall move ?_)
    · exact List.mem_append_left _ ha
    · exact List.mem_append_right _ List.mem_cons_self

/-- **Epoll delivers every accepted event once and in order.**  In exactly the runs that drop no
token the ready list is empty at every quiet moment at which a thread is in its `select`; so if all
timeouts are at quiet moments, too, each of them finds the ready list empty.  A run in which one
thread waits drops no token.
SOURCE: pkg/io/epoll.go:84-135 -/
theorem epoll_delivery (fds : D → FileDescriptor) (schedule : List (T × EpollAction D)) :
    takenEvents (runEpollThreads fds schedule).2 ++
        (runEpollThreads fds schedule).1.ep.readyList =
      acceptedEvents (runEpollThreads fds schedule).2 ∧
    ((∀ done, done <+: schedule → ∀ t m, (runEpollThreads fds done).1.pc t = .selecting m →
        Quiet (runEpollThreads fds done).1 → (runEpollThreads fds done).1.ep.readyList = []) ↔
      ∀ done move, done ++ [move] <+: schedule → ¬ DropsToken (runEpollThreads fds done).1 move) ∧
    ((∀ done move, done ++ [move] <+: schedule → ¬ DropsToken (runEpollThreads fds done).1 move ∧
        (TimesOut (runEpollThreads fds done).1 move → Quiet (runEpollThreads fds done).1)) →
      ∀ done move, done ++ [move] <+: schedule → TimesOut (runEpollThreads fds done).1 move →
        (runEpollThreads fds done).1.ep.readyList = []) ∧
    ((∃ w, ∀ move ∈ schedule, ∀ m, move.2 = .wait m → move.1 = w) →
      ∀ done move, done ++ [move] <+: schedule →
        ¬ DropsToken (runEpollThreads fds done).1 move) := by
  have hquiet : (∀ done, done <+: schedule → ∀ t m,
      (runEpollThreads fds done).1.pc t = .selecting m → Quiet (runEpollThreads fds done).1 →
        (runEpollThreads fds done).1.ep.readyList = []) ↔
      ∀ done move, done ++ [move] <+: schedule →
        ¬ DropsToken (runEpollThreads fds done).1 move := by
    have hgood : ∀ s : EpollThreads D T, (∀ t m, s.pc t = .selecting m → Quiet s →
        s.ep.readyList = []) ↔ ¬ ∃ t, SleepsOnEvent s t := by
      intro s
      constructor
      · rintro h ⟨t, ⟨m, ht⟩, hquiet, hne⟩
        exact hne (h t m ht hquiet)
      · intro h t m ht hquiet
        by_contra hne
        exact h ⟨t, ⟨m, ht⟩, hquiet, hne⟩
    simp only [hgood]
    refine always_iff_clean (fun done => ¬ ∃ t, SleepsOnEvent (runEpollThreads fds done).1 t)
      (fun done move => ¬ DropsToken (runEpollThreads fds done).1 move) ?_ ?_ schedule
    · rintro ⟨t, ⟨m, ht⟩, -⟩
      cases ht
    · intro done move hawake
      rw [run_concat_fst]
      exact not_congr ((step_move move _).sleeps_iff hawake)
  refine ⟨delivery_ledger fds schedule, hquiet, fun h done move hpre htimeout => ?_, ?_⟩
  · obtain ⟨m, hpc⟩ := htimeout.selecting
    refine hquiet.mpr (fun done move hpre => (h done move hpre).1) done ?_ _ m hpc
      ((h done move hpre).2 htimeout)
    exact (List.prefix_append ..).trans hpre
  · rintro ⟨w, hcall⟩ done move hpre
    refine (run_waitsOnly done fun a ha => hcall a ?_).not_dropsToken
    exact (hpre.subset (List.mem_append_left _ ha))

/-! ## Calls that nobody disturbs -/

/-- **The steps of an interrupt make up the whole call.** -/
theorem undisturbed_notify (hpc : s.pc t = .idle) (hfree : s.holder = none) (d : D)
    (events : UInt32) :
    (eventRun EpollThreads.step s [(t, .notify d events), (t, .resume false)]).1.toEpollSystem =
      { ep := (s.ep.notifyDeviceInterrupt d events s.fds).2
        fds := (s.ep.notifyDeviceInterrupt d events s.fds).1 } := by
  have hfirst : s.step (t, .notify d events) = s.notify t d events := by
    simp only [EpollThreads.step, hpc, hfree]
  show ((s.step (t, .notify d events)).1.step (t, .resume false)).1.toEpollSystem = _
  rw [hfirst]
  cases hentry : s.ep.interestList (s.fds d).fd with
  | none =>
    rw [notify_unregistered hentry]
    simp [EpollThreads.notify, hentry, EpollThreads.step, hpc]
  | some entry =>
    rw [notify_registered hentry]
    simp [EpollThreads.notify, hentry, EpollThreads.step, EpollThreads.send]

theorem run_resume_idle (hpc : s.pc t = .idle) (timedOut : Bool) (k : ℕ) :
    eventRun EpollThreads.step s (List.replicate k (t, .resume timedOut)) = (s, []) := by
  induction k with
  | zero => rfl
  | succ k ih =>
    have hstay : s.step (t, .resume timedOut) = (s, []) := by
      simp only [EpollThreads.step, hpc]
    rw [List.replicate_succ, eventRun_cons, hstay, ih]
    rfl

omit [DecidableEq D] in
theorem take_of_takeReady (h : s.ep.takeReady m = some (returned, ep)) :
    s.take t m = ({ s with ep, pc := Function.update s.pc t .idle }, [.taken returned]) := by
  simp only [EpollThreads.take, h]

/-- `EpollWait` after it has received a token. -/
theorem undisturbed_take (hpc : s.pc t = .woken m) (hfree : s.holder = none)
    (htake : s.ep.takeReady m = some (returned, ep)) :
    (eventRun EpollThreads.step s (List.replicate 1 (t, .resume timedOut))).1.ep = ep ∧
      takenEvents (eventRun EpollThreads.step s
        (List.replicate 1 (t, .resume timedOut))).2 = returned := by
  have hstep : s.step (t, .resume timedOut) = s.take t m := by
    simp only [EpollThreads.step, hpc, hfree]
  rw [List.replicate_one, eventRun_cons, hstep, take_of_takeReady htake]
  exact ⟨rfl, List.append_nil _⟩

/-- From the `select` of `EpollWait` on. -/
theorem undisturbed_select (hpc : s.pc t = .selecting m) (hfree : s.holder = none)
    (hwait : (if s.ep.wakeCh = true ∧ timedOut = false then
      { s.ep with wakeCh := false }.takeReady m else some ([], s.ep)) = some (returned, ep)) :
    (eventRun EpollThreads.step s (List.replicate 2 (t, .resume timedOut))).1.ep = ep ∧
      takenEvents (eventRun EpollThreads.step s
        (List.replicate 2 (t, .resume timedOut))).2 = returned := by
  have hstep : s.step (t, .resume timedOut) = s.select t m timedOut := by
    simp only [EpollThreads.step, hpc]
  rw [List.replicate_succ, eventRun_cons, hstep]
  cases timedOut with
  | true =>
    rw [if_neg (fun h => Bool.noConfusion h.2)] at hwait
    cases hwait
    unfold EpollThreads.select
    rw [if_pos rfl, run_resume_idle (Function.update_self ..)]
    exact ⟨rfl, rfl⟩
  | false =>
    by_cases hwake : s.ep.wakeCh = true
    · rw [if_pos ⟨hwake, rfl⟩] at hwait
      have hselect : s.select t m false = ({ s with
          ep := { s.ep with wakeCh := false }
          pc := Function.update s.pc t (.woken m) }, []) := by
        simp [EpollThreads.select, hwake]
      rw [hselect]
      exact undisturbed_take (Function.update_self ..) hfree hwait
    · rw [if_neg (fun h => hwake h.1)] at hwait
      cases hwait
      -- the thread stays in its `select`
      have hselect : s.select t m false = (s, []) := by
        simp [EpollThreads.select, hwake]
      rw [hselect, List.replicate_one, eventRun_cons, hstep, hselect]
      exact ⟨rfl, rfl⟩

/-- **So do the steps of `EpollWait`**, with the same choice of `select`. -/
theorem undisturbed_wait (hpc : s.pc t = .idle) (hfree : s.holder = none)
    (hwait : s.ep.epollWait m timedOut = some (returned, ep)) :
    (eventRun EpollThreads.step s
        ((t, .wait m) :: List.replicate 2 (t, .resume timedOut))).1.ep = ep ∧
      takenEvents (eventRun EpollThreads.step s
        ((t, .wait m) :: List.replicate 2 (t, .resume timedOut))).2 = returned := by
  have hfirst : s.step (t, .wait m) = s.wait t m := by
    simp only [EpollThreads.step, hpc, hfree]
  rw [eventRun_cons, hfirst]
  unfold Epoll.epollWait at hwait
  unfold EpollThreads.wait
  by_cases hready : s.ep.readyList.length > 0
  · rw [if_pos hready] at hwait ⊢
    rw [take_of_takeReady hwait, run_resume_idle (Function.update_self ..)]
    exact ⟨rfl, List.append_nil _⟩
  · rw [if_neg hready] at hwait ⊢
    exact undisturbed_select (Function.update_self ..) hfree hwait

end EpollDelivery

/-! ## A dropped token -/

/-- Threads 0 and 1 wait for one event each.  They have found the ready list empty and are not yet
blocked in their `select`, so that two interrupts from thread 2, the device, leave one token in the
channel.  Thread 0 receives it, takes one event and returns. -/
def twoWaiters : EpollThreads Unit (Fin 3) :=
  (runEpollThreads (fun _ => { fd := 10 })
    [(2, .ctl .add () (some ⟨epollIn, ()⟩)), (0, .wait 1), (1, .wait 1),
      (2, .notify () epollIn), (2, .resume false), (2, .notify () epollIn), (2, .resume false),
      (0, .resume false), (0, .resume false)]).1

/-- **A thread times out beside an event that nobody will wake it for**: the ready list still has
the second event, the channel is empty, and the two other threads are outside of every call.
SOURCE: pkg/io/epoll.go:97-100, 120-134 -/
theorem timeout_beside_event :
    twoWaiters.ep.readyList = [⟨epollIn, ()⟩] ∧ twoWaiters.ep.wakeCh = false ∧
      twoWaiters.pc 0 = .idle ∧ twoWaiters.pc 1 = .selecting 1 ∧ twoWaiters.pc 2 = .idle ∧
      (twoWaiters.step (1, .resume true)).2 = [.timedOut] := by
  decide

end OsSimulator.Analysis
