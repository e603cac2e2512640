import OsSimulator.Interface.NetpollMoves
import OsSimulator.Library.Census

/-!
# Data arrivals and the network poller

An interrupt of a descriptor that is not registered is dropped: it does not even set `IsReady`.  A
`ReadNonBlocking` that comes after it parks beside the data, and so does one that has made its test
and is not registered yet; no event will wake it (`arrival_lost`).

`ArrivalsPending` says that no goroutine is parked beside data whose interrupt has been delivered,
unless an event of its descriptor is pending: in the ready list, or in the hands of a
`PollAndWakeup` that is under way.  It holds all along exactly the runs in which no step loses an
arrival (`LosesArrival`).  Where the descriptors have different numbers, it is enough that every
interrupt with data comes at a good moment (`Heeded`).
-/

set_option autoImplicit false

namespace OsSimulator.Analysis

open Model Interface Library

section NetpollerArrivals

variable {D T : Type*}

/-! ## The specification -/

/-- The event is in the ready list, or in the hands of a `PollAndWakeup`. -/
def PendingEvent (s : Netpoll D T) (ev : EpollEvent D) : Prop :=
  ev ∈ s.np.epollInstance.readyList ∨ ∃ t events, s.pc t = .polled events ∧ ev ∈ events

/-- An event of the descriptor number is pending. -/
def EventPending (s : Netpoll D T) (number : ℤ) : Prop :=
  ∃ ev, PendingEvent s ev ∧ (s.fds ev.fd).fd = number

/-- Which descriptors have had an interrupt since the last arrival of data. -/
def notifiedAfter [DecidableEq D] (move : NetpollMove D T) (notified : D → Bool) : D → Bool :=
  match move with
  | .arrive d _ => Function.update notified d false
  | .interrupt d _ => Function.update notified d true
  | _ => notified

def notifiedIn [DecidableEq D] (schedule : List (NetpollMove D T)) : D → Bool :=
  schedule.foldl (fun notified move => notifiedAfter move notified) fun _ => false

/-- Data is in the buffer, and its interrupt has been delivered. -/
def DataArrived (s : Netpoll D T) (notified : D → Bool) (d : D) : Prop :=
  (s.fds d).dataBuffer ≠ [] ∧ notified d = true

def ArrivalsPending (s : Netpoll D T) (notified : D → Bool) : Prop :=
  ∀ d, (s.np.parkedGs (s.fds d).fd).isSome → DataArrived s notified d → EventPending s (s.fds d).fd

/-- The interrupt is dropped although a goroutine is parked beside the data, or a goroutine is
parked beside data whose interrupt has been delivered; and no event is pending. -/
def LosesArrival (s : Netpoll D T) (notified : D → Bool) : NetpollMove D T → Prop
  | .interrupt d _ => s.np.epollInstance.interestList (s.fds d).fd = none ∧
      (s.np.parkedGs (s.fds d).fd).isSome ∧ (s.fds d).dataBuffer ≠ [] ∧
      ¬ EventPending s (s.fds d).fd
  | .resume t => ∃ gid d, s.pc t = .parking gid d ∧ ¬ EventPending s (s.fds d).fd ∧
      ∃ d', (s.fds d').fd = (s.fds d).fd ∧ DataArrived s notified d'
  | _ => False

/-- A `ReadNonBlocking` of the descriptor is between its test and its registration. -/
def InWindow (s : Netpoll D T) (d : D) : Prop :=
  ∃ t, (∃ gid, s.pc t = .parking gid d) ∨ ∃ k, s.pc t = .registering d k

/-- A good moment for an interrupt. -/
def Heeded (s : Netpoll D T) (d : D) : Prop :=
  ((s.np.epollInstance.interestList (s.fds d).fd).isSome ∨ (s.fds d).isReady = true) ∧
    ¬ InWindow s d

/-! ## Pending events -/

variable [DecidableEq D] [DecidableEq T] {s s' : Netpoll D T} {notified : D → Bool}

omit [DecidableEq D] in
/-- A thread that has no events in its hands moves. -/
theorem pendingEvent_update {t : T} {pc' : NetpollPc D} {ev : EpollEvent D}
    (hready : s'.np.epollInstance.readyList = s.np.epollInstance.readyList)
    (hpc : s'.pc = Function.update s.pc t pc') (hold : ∀ events, s.pc t ≠ .polled events)
    (hnew : ∀ events, pc' ≠ .polled events) : PendingEvent s' ev ↔ PendingEvent s ev := by
  unfold PendingEvent
  rw [hready, hpc]
  refine or_congr_right (exists_congr fun u => exists_congr fun events => ?_)
  refine and_congr_left fun _ => ?_
  by_cases hu : u = t
  · rw [hu, Function.update_self]
    exact iff_of_false (hnew events) (hold events)
  · rw [Function.update_of_ne hu]

/-! ## One step -/

omit [DecidableEq T] in
theorem notifiedIn_concat (done : List (NetpollMove D T)) (move : NetpollMove D T) :
    notifiedIn (done ++ [move]) = notifiedAfter move (notifiedIn done) := by
  unfold notifiedIn
  rw [List.foldl_append]
  rfl

variable {move : NetpollMove D T} {r : Netpoll D T × List NetpollReport}

theorem fds_number (h : NetpollStep s move r) (d : D) : (r.1.fds d).fd = (s.fds d).fd := by
  have hupdate : ∀ (d' : D) (fd' : FileDescriptor), fd'.fd = (s.fds d').fd →
      (Function.update s.fds d' fd' d).fd = (s.fds d).fd := by
    intro d' fd' hfd
    by_cases hd : d = d'
    · rw [hd, Function.update_self, hfd]
    · rw [Function.update_of_ne hd]
  cases h with
  | busyRead | busyPoll | idle | pass | park | register | wait | wake => rfl
  | consume t gid d' => exact hupdate d' _ rfl
  | arrive d' data => exact hupdate d' _ rfl
  | interrupt d' events =>
    show ((s.np.epollInstance.notifyDeviceInterrupt d' events s.fds).1 d).fd = (s.fds d).fd
    unfold Epoll.notifyDeviceInterrupt
    split
    · exact markReady_fd d' s.fds d
    · rfl

/-- Data has arrived after a step only if it had before, or if its interrupt is the step. -/
theorem dataArrived_step (h : NetpollStep s move r) {d : D}
    (hd : DataArrived r.1 (notifiedAfter move notified) d) :
    DataArrived s notified d ∨
      (s.fds d).dataBuffer ≠ [] ∧ ∃ events, move = .interrupt d events := by
  cases h with
  | busyRead | busyPoll | idle | pass | park | register | wait | wake => exact .inl hd
  | consume t gid d' =>
    obtain ⟨hdata, hnotified⟩ := hd
    by_cases hdd : d = d'
    · simp [hdd] at hdata
    · simp only [Function.update_of_ne hdd] at hdata
      exact .inl ⟨hdata, hnotified⟩
  | arrive d' data =>
    obtain ⟨hdata, hnotified⟩ := hd
    by_cases hdd : d = d'
    · simp [notifiedAfter, hdd] at hnotified
    · simp only [Netpoll.arrive, Function.update_of_ne hdd] at hdata
      simp only [notifiedAfter, Function.update_of_ne hdd] at hnotified
      exact .inl ⟨hdata, hnotified⟩
  | interrupt d' events =>
    obtain ⟨hdata, hnotified⟩ := hd
    have hsame : ((s.interrupt d' events).fds d).dataBuffer = (s.fds d).dataBuffer := by
      simp only [Netpoll.interrupt, notify_dataBuffer]
    rw [hsame] at hdata
    by_cases hdd : d = d'
    · exact .inr ⟨hdata, events, by rw [hdd]⟩
    · simp only [notifiedAfter, Function.update_of_ne hdd] at hnotified
      exact .inl ⟨hdata, hnotified⟩

omit [DecidableEq D] [DecidableEq T] in
/-- A step after which no more is parked and no more has arrived, and which handles only events of
numbers on which nobody is parked after it. -/
theorem ArrivalsPending.keep {notified' : D → Bool} (h : ArrivalsPending s notified)
    (hnumber : ∀ d, (s'.fds d).fd = (s.fds d).fd)
    (hparked : ∀ n, (s'.np.parkedGs n).isSome → (s.np.parkedGs n).isSome)
    (harrived : ∀ d, DataArrived s' notified' d → DataArrived s notified d)
    (hpending : ∀ ev, (s'.np.parkedGs (s.fds ev.fd).fd).isSome → PendingEvent s ev →
      PendingEvent s' ev) : ArrivalsPending s' notified' := by
  intro d hsome hd
  rw [hnumber] at hsome ⊢
  obtain ⟨ev, hev, hn⟩ := h d (hparked _ hsome) (harrived d hd)
  exact ⟨ev, hpending ev (by rw [hn]; exact hsome) hev, (hnumber ev.fd).trans hn⟩

omit [DecidableEq D] in
theorem wake_keeps (h : ArrivalsPending s notified) {t : T} {events : List (EpollEvent D)}
    (hpc : s.pc t = .polled events) : ArrivalsPending (s.wake t events).1 notified := by
  refine h.keep (fun _ => rfl) (fun n hsome => (kept_of_parked hsome).1) (fun _ hd => hd) ?_
  intro ev hsome hev
  rcases hev with hev | ⟨u, events', hu, hev⟩
  · exact .inl ((readyList_wakeEvents s.fds events s.np).symm ▸ hev)
  · by_cases hut : u = t
    · -- nobody is parked on the number of an event in the hands of `t`
      rw [hut, hpc] at hu
      cases hu
      have hnone : (s.np.wakeEvents s.fds events).1.parkedGs (s.fds ev.fd).fd = none :=
        unparked_of_mem hev
      have hsome' : ((s.np.wakeEvents s.fds events).1.parkedGs (s.fds ev.fd).fd).isSome := hsome
      rw [hnone] at hsome'
      cases hsome'
    · exact .inr ⟨u, events', (Function.update_of_ne hut _ _).trans hu, hev⟩

omit [DecidableEq D] in
theorem wait_keeps (h : ArrivalsPending s notified) {t : T} {events : List (EpollEvent D)}
    {ep : Epoll D} (hpc : s.pc t = .idle)
    (hready : s.np.epollInstance.readyList = events ++ ep.readyList) :
    ArrivalsPending { s with
      np := { s.np with epollInstance := ep }
      pc := Function.update s.pc t (.polled events) } notified := by
  refine h.keep (fun _ => rfl) (fun _ hsome => hsome) (fun _ hd => hd) fun ev _ hev => ?_
  rcases hev with hev | ⟨u, events', hu, hev⟩
  · rw [hready] at hev
    rcases List.mem_append.mp hev with hev | hev
    · exact .inr ⟨t, events, Function.update_self .., hev⟩
    · exact .inl hev
  · have hut : u ≠ t := by
      rintro rfl
      cases hpc.symm.trans hu
    exact .inr ⟨u, events', (Function.update_of_ne hut _ _).trans hu, hev⟩

omit [DecidableEq D] in
theorem register_keeps (h : ArrivalsPending s notified) {t : T} {d : D} {k : ℕ}
    (hpc : s.pc t = .registering d k) : ArrivalsPending (s.register t d k).1 notified := by
  refine h.keep (fun _ => rfl) (fun _ hsome => hsome) (fun _ hd => hd) fun ev _ hev => ?_
  obtain ⟨interest, heq⟩ := epollCtl_frame .add (s.fds d) (some ⟨epollIn, d⟩) s.np.epollInstance
  refine (pendingEvent_update ?_ rfl (fun events h => ?_) (fun events h => by cases h)).mpr hev
  · show (Epoll.epollCtl .add (s.fds d) (some ⟨epollIn, d⟩) s.np.epollInstance).2.readyList = _
    rw [heq]
  · cases hpc.symm.trans h

omit [DecidableEq D] in
theorem park_keeps_iff (h : ArrivalsPending s notified) {t : T} {gid : ℤ} {d : D}
    (hpc : s.pc t = .parking gid d) :
    ArrivalsPending (s.park t gid d).1 notified ↔ ¬ LosesArrival s notified (.resume t) := by
  have hpending : ∀ number, EventPending (s.park t gid d).1 number ↔ EventPending s number := by
    intro number
    refine exists_congr fun ev => and_congr_left fun _ => ?_
    exact pendingEvent_update rfl rfl (fun events h => by cases hpc.symm.trans h)
      (fun events h => by cases h)
  constructor
  · rintro hall ⟨gid', d₂, hpc', hno, d', hnumber, hd'⟩
    cases hpc.symm.trans hpc'
    have hparked : ((s.park t gid d).1.np.parkedGs (s.fds d').fd).isSome := by
      rw [hnumber]
      simp [Netpoll.park, GoNetpoller.park]
    have hev := hall d' hparked hd'
    rw [hpending] at hev
    exact hno (hnumber ▸ hev)
  · intro hkeep d' hsome hd'
    rw [hpending]
    by_cases hnumber : (s.fds d').fd = (s.fds d).fd
    · by_contra hno
      exact hkeep ⟨gid, d, hpc, hnumber ▸ hno, d', hnumber, hd'⟩
    · refine h d' ?_ hd'
      have hother : (s.park t gid d).1.np.parkedGs (s.fds d').fd = s.np.parkedGs (s.fds d').fd :=
        Function.update_of_ne hnumber _ _
      exact hother ▸ hsome

omit [DecidableEq T] in
theorem interrupt_keeps_iff (h : ArrivalsPending s notified) (d : D) (events : UInt32) :
    ArrivalsPending (s.interrupt d events) (Function.update notified d true) ↔
      ¬ LosesArrival s notified (.interrupt d events) := by
  cases hentry : s.np.epollInstance.interestList (s.fds d).fd with
  | some entry =>
    refine iff_of_true ?_ fun hloses => by cases hentry.symm.trans hloses.1
    have hinterrupt : s.interrupt d events = { s with
        np := { s.np with epollInstance := (s.np.epollInstance.pushReady d events).sendWake }
        fds := Epoll.markReady d s.fds } := by
      unfold Netpoll.interrupt
      rw [notify_registered hentry]
    rw [hinterrupt]
    rintro d' hparked ⟨hdata, hnotified⟩
    simp only [markReady_fd] at hparked ⊢
    by_cases hnumber : (s.fds d').fd = (s.fds d).fd
    · refine ⟨⟨events, d⟩, .inl (List.mem_append_right _ List.mem_cons_self), ?_⟩
      rw [hnumber]
      exact markReady_fd d s.fds d
    · have hd : d' ≠ d := fun heq => hnumber (by rw [heq])
      rw [Function.update_of_ne hd] at hnotified
      simp only [Epoll.markReady, Function.update_of_ne hd] at hdata
      obtain ⟨ev, hev, hn⟩ := h d' hparked ⟨hdata, hnotified⟩
      refine ⟨ev, ?_, (markReady_fd d s.fds ev.fd).trans hn⟩
      rcases hev with hev | hev
      · exact .inl (List.mem_append_left _ hev)
      · exact .inr hev
  | none =>
    have hsame : s.interrupt d events = s := by
      unfold Netpoll.interrupt
      rw [notify_unregistered hentry]
    rw [hsame]
    constructor
    · rintro hall ⟨-, hparked, hdata, hno⟩
      exact hno (hall d hparked ⟨hdata, Function.update_self ..⟩)
    · rintro hkeep d' hparked ⟨hdata, hnotified⟩
      by_cases hd : d' = d
      · by_contra hno
        rw [hd] at hparked hdata hno
        exact hkeep ⟨hentry, hparked, hdata, hno⟩
      · rw [Function.update_of_ne hd] at hnotified
        exact h d' hparked ⟨hdata, hnotified⟩

theorem arrivals_step (h : NetpollStep s move r) (hall : ArrivalsPending s notified) :
    ArrivalsPending r.1 (notifiedAfter move notified) ↔ ¬ LosesArrival s notified move := by
  cases h with
  | busyRead | busyPoll => exact iff_of_true hall not_false
  | idle t hpc =>
    refine iff_of_true hall ?_
    rintro ⟨gid, d, hpc', -⟩
    cases hpc.symm.trans hpc'
  | consume t gid d =>
    have hstep : NetpollStep s (.read t gid d) _ := .consume t gid d
    refine iff_of_true (hall.keep (fds_number hstep) (fun _ hsome => hsome) (fun d' hd' => ?_)
      fun _ _ hev => hev) not_false
    exact (dataArrived_step hstep hd').resolve_right fun ⟨_, _, heq⟩ => by cases heq
  | pass t gid d hpc hempty =>
    refine iff_of_true (hall.keep (fun _ => rfl) (fun _ hsome => hsome) (fun _ hd => hd)
      fun ev _ hev => ?_) not_false
    refine (pendingEvent_update ?_ rfl (fun events h => ?_) (fun events h => ?_)).mpr hev
    · rfl
    · cases hpc.symm.trans h
    · cases h
  | park t gid d hpc => exact park_keeps_iff hall hpc
  | register t d k hpc =>
    refine iff_of_true (register_keeps hall hpc) ?_
    rintro ⟨gid, d, hpc', -⟩
    cases hpc.symm.trans hpc'
  | wait t timedOut events ep hpc hready => exact iff_of_true (wait_keeps hall hpc hready) not_false
  | wake t events hpc =>
    refine iff_of_true (wake_keeps hall hpc) ?_
    rintro ⟨gid, d, hpc', -⟩
    cases hpc.symm.trans hpc'
  | arrive d data =>
    have hstep : NetpollStep s (.arrive d data) _ := .arrive d data
    refine iff_of_true (hall.keep (fds_number hstep) (fun _ hsome => hsome) (fun d' hd' => ?_)
      fun _ _ hev => hev) not_false
    exact (dataArrived_step hstep hd').resolve_right fun ⟨_, _, heq⟩ => by cases heq
  | interrupt d events => exact interrupt_keeps_iff hall d events

/-! ## Interrupts at good moments -/

/-- Data whose interrupt has been delivered makes the descriptor ready, nobody is about to park
beside it, and who is parked is registered or about to be. -/
structure HeededInv (s : Netpoll D T) (notified : D → Bool) : Prop where
  ready : ∀ d, DataArrived s notified d → (s.fds d).isReady = true
  window : ∀ t gid d, s.pc t = .parking gid d → ¬ DataArrived s notified d
  registered : ∀ n, (s.np.parkedGs n).isSome → (s.np.epollInstance.interestList n).isSome ∨
    ∃ t d k, s.pc t = .registering d k ∧ (s.fds d).fd = n

omit [DecidableEq D] [DecidableEq T] in
theorem HeededInv.not_loses (h : HeededInv s notified)
    (hinj : ∀ d d', (s.fds d).fd = (s.fds d').fd → d = d')
    (hheed : ∀ d events, move = .interrupt d events → (s.fds d).dataBuffer ≠ [] → Heeded s d) :
    ¬ LosesArrival s notified move := by
  cases move with
  | interrupt d events =>
    rintro ⟨hnone, hparked, hdata, -⟩
    rcases h.registered _ hparked with hsome | ⟨t, d', k, hpc, hnumber⟩
    · rw [hnone] at hsome
      cases hsome
    · rw [hinj d' d hnumber] at hpc
      exact (hheed d events rfl hdata).2 ⟨t, .inr ⟨k, hpc⟩⟩
  | resume t =>
    rintro ⟨gid, d, hpc, -, d', hnumber, hd'⟩
    rw [hinj d' d hnumber] at hd'
    exact h.window t gid d hpc hd'
  | read t gid d => exact not_false
  | poll t timedOut => exact not_false
  | arrive d data => exact not_false

/-- A descriptor stays ready while it has data. -/
theorem isReady_step (h : NetpollStep s move r) {d : D} (hready : (s.fds d).isReady = true)
    (hdata : (r.1.fds d).dataBuffer ≠ []) : (r.1.fds d).isReady = true := by
  cases h with
  | busyRead | busyPoll | idle | pass | park | register | wait | wake => exact hready
  | consume t gid d' =>
    by_cases hdd : d = d'
    · simp [hdd] at hdata
    · simp only [Function.update_of_ne hdd]
      exact hready
  | arrive d' data =>
    by_cases hdd : d = d'
    · subst hdd
      simpa [Netpoll.arrive] using hready
    · simpa [Netpoll.arrive, hdd] using hready
  | interrupt d' events => exact notify_isReady hready

/-- Who is about to park was before, or has just seen that there is nothing to read. -/
theorem parking_step (h : NetpollStep s move r) {t : T} {gid : ℤ} {d : D}
    (hpc : r.1.pc t = .parking gid d) :
    s.pc t = .parking gid d ∨
      move = .read t gid d ∧ ((s.fds d).isReady = true → (s.fds d).dataBuffer = []) := by
  cases h with
  | busyRead | busyPoll | idle | consume | arrive | interrupt => exact .inl hpc
  | park | register | wait | wake => exact .inl (eq_of_update hpc fun heq => by cases heq).2
  | pass u gid' d' hidle hempty =>
    have hpc' : Function.update s.pc u (.parking gid' d') t = .parking gid d := hpc
    by_cases htu : t = u
    · rw [htu, Function.update_self] at hpc'
      cases hpc'
      exact .inr ⟨by rw [htu], hempty⟩
    · rw [Function.update_of_ne htu] at hpc'
      exact .inl hpc'

omit [DecidableEq D] [DecidableEq T] in
theorem registered_keep (hreg : ∀ n, (s.np.parkedGs n).isSome →
      (s.np.epollInstance.interestList n).isSome ∨
        ∃ t d k, s.pc t = .registering d k ∧ (s.fds d).fd = n)
    (hnumber : ∀ d, (s'.fds d).fd = (s.fds d).fd)
    (hparked : ∀ n, (s'.np.parkedGs n).isSome → (s.np.parkedGs n).isSome ∧
      s'.np.epollInstance.interestList n = s.np.epollInstance.interestList n)
    (hpc : ∀ t d k, s.pc t = .registering d k → s'.pc t = .registering d k) (n : ℤ)
    (hn : (s'.np.parkedGs n).isSome) :
    (s'.np.epollInstance.interestList n).isSome ∨
      ∃ t d k, s'.pc t = .registering d k ∧ (s'.fds d).fd = n := by
  obtain ⟨hold, hinterest⟩ := hparked n hn
  rcases hreg n hold with hsome | ⟨t, d, k, ht, hd⟩
  · exact .inl (hinterest ▸ hsome)
  · exact .inr ⟨t, d, k, hpc t d k ht, (hnumber d).trans hd⟩

theorem HeededInv.registered_step (h : HeededInv s notified) (hstep : NetpollStep s move r) (n : ℤ)
    (hn : (r.1.np.parkedGs n).isSome) : (r.1.np.epollInstance.interestList n).isSome ∨
      ∃ t d k, r.1.pc t = .registering d k ∧ (r.1.fds d).fd = n := by
  have hnumber := fds_number hstep
  have hother : ∀ {t : T} {pc' : NetpollPc D}, (∀ d k, s.pc t ≠ .registering d k) → ∀ u d k,
      s.pc u = .registering d k → Function.update s.pc t pc' u = .registering d k := by
    intro t pc' ht u d k hu
    have hut : u ≠ t := by
      rintro rfl
      exact ht d k hu
    rw [Function.update_of_ne hut, hu]
  cases hstep with
  | busyRead | busyPoll | idle | consume | arrive =>
    exact registered_keep h.registered hnumber (fun _ h => ⟨h, rfl⟩) (fun _ _ _ h => h) n hn
  | interrupt d events =>
    refine registered_keep h.registered hnumber (fun m h => ⟨h, ?_⟩) (fun _ _ _ h => h) n hn
    exact congrFun (notify_interestList d events s.fds s.np.epollInstance) m
  | pass t gid d hpc =>
    refine registered_keep h.registered hnumber (fun _ h => ⟨h, rfl⟩) (hother ?_) n hn
    exact fun d k h => by cases hpc.symm.trans h
  | wait t timedOut events ep hpc hready hinterest =>
    refine registered_keep h.registered hnumber (fun _ h => ⟨h, ?_⟩) (hother ?_) n hn
    · exact congrFun hinterest _
    · exact fun d k h => by cases hpc.symm.trans h
  | wake t events hpc =>
    refine registered_keep h.registered hnumber (fun m h => kept_of_parked h) (hother ?_) n hn
    exact fun d k h => by cases hpc.symm.trans h
  | park t gid d hpc =>
    by_cases hnd : n = (s.fds d).fd
    · exact .inr ⟨t, d, s.np.totalParked, Function.update_self .., hnd.symm⟩
    · have hold : (s.np.parkedGs n).isSome := by
        have hsame : (s.park t gid d).1.np.parkedGs n = s.np.parkedGs n :=
          Function.update_of_ne hnd _ _
        rwa [hsame] at hn
      rcases h.registered n hold with hsome | ⟨u, d', k, hu, hd'⟩
      · exact .inl hsome
      · exact .inr ⟨u, d', k, hother (fun _ _ h => by cases hpc.symm.trans h) u d' k hu, hd'⟩
  | register t d k hpc =>
    rcases h.registered n hn with hsome | ⟨u, d', k', hu, hd'⟩
    · exact .inl (isSome_add_of_isSome hsome)
    · by_cases hut : u = t
      · rw [hut, hpc] at hu
        cases hu
        exact .inl (hd' ▸ isSome_add_self ..)
      · exact .inr ⟨u, d', k', (Function.update_of_ne hut _ _).trans hu, hd'⟩

theorem HeededInv.step (h : HeededInv s notified) (hstep : NetpollStep s move r)
    (hheed : ∀ d events, move = .interrupt d events → (s.fds d).dataBuffer ≠ [] → Heeded s d) :
    HeededInv r.1 (notifiedAfter move notified) := by
  refine ⟨fun d hd => ?_, fun t gid d hpc hd => ?_, h.registered_step hstep⟩
  · rcases dataArrived_step hstep hd with hold | ⟨hdata, events, rfl⟩
    · exact isReady_step hstep (h.ready d hold) hd.1
    · rcases (hheed d events rfl hdata).1 with hsome | hready
      · obtain ⟨entry, hentry⟩ := Option.isSome_iff_exists.mp hsome
        cases hstep
        show ((s.np.epollInstance.notifyDeviceInterrupt d events s.fds).1 d).isReady = true
        rw [notify_registered hentry]
        simp [Epoll.markReady]
      · exact isReady_step hstep hready hd.1
  · rcases dataArrived_step hstep hd with hold | ⟨hdata, events, rfl⟩
    · rcases parking_step hstep hpc with hpc | ⟨-, hempty⟩
      · exact h.window t gid d hpc hold
      · exact hold.1 (hempty (h.ready d hold))
    · rcases parking_step hstep hpc with hpc | ⟨heq, -⟩
      · exact (hheed d events rfl hdata).2 ⟨t, .inl ⟨gid, hpc⟩⟩
      · cases heq

/-! ## Further polls -/

/-- A thread calls `PollAndWakeup` some times in a row. -/
def polls (p : T) (times : ℕ) : List (NetpollMove D T) :=
  (List.replicate times [.poll p false, .resume p]).flatten

/-- One undisturbed `PollAndWakeup` on a ready list that is not empty. -/
theorem poll_effect {p : T} (hpc : s.pc p = .idle) (hne : s.np.epollInstance.readyList ≠ []) :
    ∃ s' wokenGs, eventRun Netpoll.step s [.poll p false, .resume p] = (s', [.woken wokenGs]) ∧
      s'.pc p = .idle ∧ s'.fds = s.fds ∧
      s'.np.epollInstance.readyList = s.np.epollInstance.readyList.drop 64 ∧
      (∀ number parked, s.np.parkedGs number = some parked →
        s'.np.parkedGs number = some parked ∨ parked ∈ wokenGs) ∧
      ∀ ev ∈ s.np.epollInstance.readyList.take 64, s'.np.parkedGs (s.fds ev.fd).fd = none := by
  have hwait : s.np.epollInstance.epollWait 64 false =
      some (s.np.epollInstance.readyList.take 64,
        { s.np.epollInstance with readyList := s.np.epollInstance.readyList.drop 64 }) := by
    unfold Epoll.epollWait
    rw [if_pos (List.length_pos_iff.mpr hne)]
    exact takeReady_nonneg (by decide)
  have hfirst : s.step (.poll p false) = ({ s with
      np := { s.np with epollInstance :=
        { s.np.epollInstance with readyList := s.np.epollInstance.readyList.drop 64 } }
      pc := Function.update s.pc p (.polled (s.np.epollInstance.readyList.take 64)) }, []) := by
    simp only [Netpoll.step, hpc, Netpoll.wait, hwait]
  have hsecond : ∀ (s₁ : Netpoll D T) events, s₁.pc p = .polled events →
      s₁.step (.resume p) = s₁.wake p events := by
    intro s₁ events h
    simp only [Netpoll.step, h]
  have hrun : eventRun Netpoll.step s [.poll p false, .resume p] =
      (((s.step (.poll p false)).1.step (.resume p)).1,
        [] ++ (s.step (.poll p false)).2 ++ ((s.step (.poll p false)).1.step (.resume p)).2) := rfl
  rw [hfirst, hsecond _ _ (Function.update_self ..)] at hrun
  refine ⟨_, _, hrun, Function.update_self .., rfl, readyList_wakeEvents .., ?_, ?_⟩
  · intro number parked h
    refine parked_or_woken ?_ _
    exact h
  · exact fun ev hev => unparked_of_mem hev

/-- **Who is parked on a descriptor with an event in the ready list is woken by further polls.** -/
theorem polls_wake {p : T} {number : ℤ} {parked : NetpollerGoroutine} (hpc : s.pc p = .idle)
    (hparked : s.np.parkedGs number = some parked)
    (hev : ∃ ev ∈ s.np.epollInstance.readyList, (s.fds ev.fd).fd = number) :
    ∃ times wokenGs, .woken wokenGs ∈ (eventRun Netpoll.step s (polls p times)).2 ∧
      parked ∈ wokenGs := by
  -- every poll takes some events off the ready list
  induction hlength : s.np.epollInstance.readyList.length using Nat.strongRecOn generalizing s with
  | ind n ih =>
    obtain ⟨ev, hev, hnumber⟩ := hev
    have hne : s.np.epollInstance.readyList ≠ [] := List.ne_nil_of_mem hev
    obtain ⟨s', wokenGs, hrun, hpc', hfds, hready, hkept, htaken⟩ := poll_effect hpc hne
    rcases hkept number parked hparked with hparked' | hwoken
    · have hlater : ev ∈ s.np.epollInstance.readyList.drop 64 := by
        rw [← List.take_append_drop 64 s.np.epollInstance.readyList] at hev
        refine (List.mem_append.mp hev).resolve_left fun htake => ?_
        have hnone := htaken ev htake
        rw [hnumber, hparked'] at hnone
        cases hnone
      have hless : (s.np.epollInstance.readyList.drop 64).length < n := by
        have := List.length_pos_iff.mpr hne
        rw [List.length_drop]
        omega
      obtain ⟨times, wokenGs', hmem, hin⟩ := ih _ hless hpc' hparked'
        ⟨ev, by rw [hready]; exact hlater, by rw [hfds]; exact hnumber⟩ (by rw [hready])
      refine ⟨times + 1, wokenGs', ?_, hin⟩
      have hpolls : polls (D := D) p (times + 1) = [.poll p false, .resume p] ++ polls p times := by
        simp only [polls, List.replicate_succ, List.flatten_cons]
      rw [hpolls, eventRun_append, hrun]
      exact List.mem_append_right _ hmem
    · refine ⟨1, wokenGs, ?_, hwoken⟩
      show .woken wokenGs ∈ (eventRun Netpoll.step s [.poll p false, .resume p]).2
      rw [hrun]
      exact List.mem_singleton_self _

/-! ## Whole runs -/

variable {fds : D → FileDescriptor}

theorem runNetpoll_number (fds : D → FileDescriptor) (schedule : List (NetpollMove D T)) (d : D) :
    ((runNetpoll fds schedule).1.fds d).fd = (fds d).fd :=
  eventRun_induction (P := fun (s : Netpoll D T) _ => (s.fds d).fd = (fds d).fd) rfl
    (fun s _ move h => (fds_number (netpollStep move s) d).trans h) schedule

/-- Every interrupt with data comes at a good moment. -/
def AlwaysHeeded (fds : D → FileDescriptor) (schedule : List (NetpollMove D T)) : Prop :=
  ∀ done d events, done ++ [.interrupt d events] <+: schedule →
    ((runNetpoll fds done).1.fds d).dataBuffer ≠ [] → Heeded (runNetpoll fds done).1 d

theorem run_heededInv {schedule : List (NetpollMove D T)} (h : AlwaysHeeded fds schedule)
    {done : List (NetpollMove D T)} (hpre : done <+: schedule) :
    HeededInv (runNetpoll fds done).1 (notifiedIn done) := by
  induction done using List.reverseRecOn with
  | nil =>
    refine ⟨fun d hd => ?_, fun t gid d hpc => ?_, fun n hn => ?_⟩
    · cases hd.2
    · cases hpc
    · cases hn
  | append_singleton done move ih =>
    rw [runNetpoll_concat, notifiedIn_concat]
    refine HeededInv.step (r := (runNetpoll fds done).1.step move)
      (ih ((List.prefix_append ..).trans hpre)) (netpollStep move _) ?_
    rintro d events rfl hdata
    exact h done d events hpre hdata

/-- **Arrivals stay pending along exactly the runs that lose none**, and along every run whose
descriptors have different numbers and whose interrupts with data come at good moments; and a
goroutine parked on a descriptor with an event in the ready list is woken by further polls.
SOURCE: pkg/io/netpoller.go:44-93, pkg/io/epoll.go:56-102 -/
theorem netpoller_arrivals (fds : D → FileDescriptor) (schedule : List (NetpollMove D T)) :
    ((∀ done, done <+: schedule → ArrivalsPending (runNetpoll fds done).1 (notifiedIn done)) ↔
      ∀ done move, done ++ [move] <+: schedule →
        ¬ LosesArrival (runNetpoll fds done).1 (notifiedIn done) move) ∧
    ((∀ d d', (fds d).fd = (fds d').fd → d = d') → AlwaysHeeded fds schedule →
      ∀ done, done <+: schedule → ArrivalsPending (runNetpoll fds done).1 (notifiedIn done)) ∧
    ∀ p number parked, (runNetpoll fds schedule).1.pc p = .idle →
      (runNetpoll fds schedule).1.np.parkedGs number = some parked →
      (∃ ev ∈ (runNetpoll fds schedule).1.np.epollInstance.readyList,
        ((runNetpoll fds schedule).1.fds ev.fd).fd = number) →
      ∃ times wokenGs, .woken wokenGs ∈
        (eventRun Netpoll.step (runNetpoll fds schedule).1 (polls p times)).2 ∧
        parked ∈ wokenGs := by
  have hiff := always_iff_clean
    (fun done => ArrivalsPending (runNetpoll fds done).1 (notifiedIn done))
    (fun done move => ¬ LosesArrival (runNetpoll fds done).1 (notifiedIn done) move) ?_ ?_ schedule
  · refine ⟨hiff, fun hinj hheed => hiff.mpr fun done move hpre => ?_,
      fun p number parked => polls_wake⟩
    refine (run_heededInv hheed ((List.prefix_append ..).trans hpre)).not_loses ?_ ?_
    · intro d d' hnumber
      rw [runNetpoll_number, runNetpoll_number] at hnumber
      exact hinj d d' hnumber
    · rintro d events rfl hdata
      exact hheed done d events hpre hdata
  · intro d hparked
    cases hparked
  · intro done move hall
    rw [runNetpoll_concat, notifiedIn_concat]
    have hstep := arrivals_step (netpollStep move (runNetpoll fds done).1) hall
    exact hstep

end NetpollerArrivals

/-! ## An arrival before the read -/

/-- Data arrives on descriptor 10 and its interrupt is delivered; then goroutine 1 reads. -/
def lateReader : Netpoll Unit Unit × List NetpollReport :=
  runNetpoll (fun _ => { fd := 10 })
    [.arrive () [42], .interrupt () epollIn, .read () 1 (), .resume (), .resume ()]

/-- **A goroutine is parked beside data whose interrupt has been delivered, and no event will wake
it**: the ready list is empty, no `PollAndWakeup` is under way, and the next one returns nothing.
SOURCE: pkg/io/netpoller.go:46-71, pkg/io/epoll.go:88 -/
theorem arrival_lost :
    lateReader.2 = [.blocked 0] ∧ lateReader.1.np.parkedGs 10 = some ⟨1, 10, 0⟩ ∧
      (lateReader.1.fds ()).dataBuffer = [42] ∧
      lateReader.1.np.epollInstance.readyList = [] ∧
      (eventRun Netpoll.step lateReader.1 [.poll () false, .resume ()]).2 = [.woken []] := by
  decide

end OsSimulator.Analysis
