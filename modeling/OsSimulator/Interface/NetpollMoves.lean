import OsSimulator.Interface.EpollCalls
import OsSimulator.Model.Netpoller

/-!
# The steps of the network poller

What each step of the poller does, with what is known when it is taken (`NetpollStep`), and the
rule for the loop of `PollAndWakeup` (`wakeEvents_induction`).
-/

set_option autoImplicit false

namespace OsSimulator.Interface

open Model Library

section NetpollMoves

variable {D T : Type*}

/-- The poller after one goroutine parked on a descriptor has been woken.
SOURCE: pkg/io/netpoller.go:84-87 -/
def unpark (fd : FileDescriptor) (np : GoNetpoller D) : GoNetpoller D :=
  { np with
    totalWoken := np.totalWoken + 1
    parkedGs := Function.update np.parkedGs fd.fd none
    epollInstance := (np.epollInstance.epollCtl .del fd none).2 }

/-- What holds before the loop of `PollAndWakeup` and is kept by every wake-up holds after it. -/
theorem wakeEvents_induction {P : GoNetpoller D → List NetpollerGoroutine → Prop}
    {fds : D → FileDescriptor} {np : GoNetpoller D} (hnp : P np [])
    (hwake : ∀ np woken d parked, P np woken → np.parkedGs (fds d).fd = some parked →
      P (unpark (fds d) np) (woken ++ [parked])) (events : List (EpollEvent D)) :
    P (np.wakeEvents fds events).1 (np.wakeEvents fds events).2 := by
  induction events using List.reverseRecOn with
  | nil => exact hnp
  | append_singleton events ev ih =>
    unfold GoNetpoller.wakeEvents at ih ⊢
    rw [List.foldl_append, List.foldl_cons, List.foldl_nil]
    unfold GoNetpoller.wakeEvent
    split
    · exact ih
    · next parked hparked => exact hwake _ _ ev.fd parked ih hparked

section WakeEvents

variable {fds : D → FileDescriptor} {np : GoNetpoller D} {events : List (EpollEvent D)}
  {number : ℤ}

/-- The loop deletes registrations, and events of the ready list never. -/
theorem readyList_wakeEvents (fds : D → FileDescriptor) (events : List (EpollEvent D))
    (np : GoNetpoller D) :
    (np.wakeEvents fds events).1.epollInstance.readyList = np.epollInstance.readyList := by
  refine wakeEvents_induction
    (P := fun np' _ => np'.epollInstance.readyList = np.epollInstance.readyList) rfl ?_ events
  intro np' woken d parked h _
  obtain ⟨interest, heq⟩ := epollCtl_frame .del (fds d) none np'.epollInstance
  unfold unpark
  rw [heq]
  exact h

/-- A goroutine that is parked before the loop is parked after it, or woken. -/
theorem parked_or_woken {parked : NetpollerGoroutine} (h : np.parkedGs number = some parked)
    (events : List (EpollEvent D)) :
    (np.wakeEvents fds events).1.parkedGs number = some parked ∨
      parked ∈ (np.wakeEvents fds events).2 := by
  refine wakeEvents_induction (P := fun np' woken => np'.parkedGs number = some parked ∨
    parked ∈ woken) (.inl h) ?_ events
  intro np' woken d parked' ih hparked'
  rcases ih with ih | ih
  · by_cases hnumber : number = (fds d).fd
    · rw [← hnumber, ih] at hparked'
      cases hparked'
      exact .inr (List.mem_append_right _ List.mem_cons_self)
    · exact .inl ((Function.update_of_ne hnumber _ _).trans ih)
  · exact .inr (List.mem_append_left _ ih)

/-- What is parked after the loop was parked before it, and its registration is as it was. -/
theorem kept_of_parked (h : ((np.wakeEvents fds events).1.parkedGs number).isSome) :
    (np.parkedGs number).isSome ∧ (np.wakeEvents fds events).1.epollInstance.interestList number =
      np.epollInstance.interestList number := by
  revert h
  refine wakeEvents_induction (P := fun np' _ => (np'.parkedGs number).isSome →
    (np.parkedGs number).isSome ∧
      np'.epollInstance.interestList number = np.epollInstance.interestList number)
    (fun h => ⟨h, rfl⟩) ?_ events
  intro np' woken d parked ih _ hsome
  by_cases hnumber : number = (fds d).fd
  · rw [hnumber] at hsome
    simp [unpark] at hsome
  · have hparked : (unpark (fds d) np').parkedGs number = np'.parkedGs number :=
      Function.update_of_ne hnumber _ _
    rw [hparked] at hsome
    obtain ⟨hold, hinterest⟩ := ih hsome
    refine ⟨hold, Eq.trans ?_ hinterest⟩
    exact interestList_del_of_ne hnumber

/-- Nobody is parked on the number of an event the loop has seen. -/
theorem unparked_of_mem {ev : EpollEvent D} (hev : ev ∈ events) :
    (np.wakeEvents fds events).1.parkedGs (fds ev.fd).fd = none := by
  induction events using List.reverseRecOn with
  | nil => exact absurd hev List.not_mem_nil
  | append_singleton events last ih =>
    unfold GoNetpoller.wakeEvents at ih ⊢
    rw [List.foldl_append, List.foldl_cons, List.foldl_nil]
    unfold GoNetpoller.wakeEvent
    rcases List.mem_append.mp hev with hev | hev
    · split
      · exact ih hev
      · by_cases hnumber : (fds ev.fd).fd = (fds last.fd).fd
        · rw [hnumber]
          exact Function.update_self ..
        · exact (Function.update_of_ne hnumber _ _).trans (ih hev)
    · rw [List.mem_singleton.mp hev]
      split
      · next hnone => exact hnone
      · exact Function.update_self ..

end WakeEvents

variable [DecidableEq D] [DecidableEq T]

/-- The steps of the poller, each with what is known when it is taken. -/
inductive NetpollStep (s : Netpoll D T) :
    NetpollMove D T → Netpoll D T × List NetpollReport → Prop
  | busyRead (t : T) (gid : ℤ) (d : D) : NetpollStep s (.read t gid d) (s, [])
  | busyPoll (t : T) (timedOut : Bool) : NetpollStep s (.poll t timedOut) (s, [])
  | idle (t : T) (hpc : s.pc t = .idle) : NetpollStep s (.resume t) (s, [])
  | consume (t : T) (gid : ℤ) (d : D) :
      NetpollStep s (.read t gid d)
        ({ s with
            fds := Function.update s.fds d { s.fds d with dataBuffer := [], isReady := false } },
          [.returned (s.fds d).dataBuffer])
  | pass (t : T) (gid : ℤ) (d : D) (hpc : s.pc t = .idle)
      (hempty : (s.fds d).isReady = true → (s.fds d).dataBuffer = []) :
      NetpollStep s (.read t gid d) ({ s with pc := Function.update s.pc t (.parking gid d) }, [])
  | park (t : T) (gid : ℤ) (d : D) (hpc : s.pc t = .parking gid d) :
      NetpollStep s (.resume t) (s.park t gid d)
  | register (t : T) (d : D) (wakeCh : ℕ) (hpc : s.pc t = .registering d wakeCh) :
      NetpollStep s (.resume t) (s.register t d wakeCh)
  | wait (t : T) (timedOut : Bool) (events : List (EpollEvent D)) (ep : Epoll D)
      (hpc : s.pc t = .idle) (hready : s.np.epollInstance.readyList = events ++ ep.readyList)
      (hinterest : ep.interestList = s.np.epollInstance.interestList) :
      NetpollStep s (.poll t timedOut)
        ({ s with
            np := { s.np with epollInstance := ep }
            pc := Function.update s.pc t (.polled events) }, [])
  | wake (t : T) (events : List (EpollEvent D)) (hpc : s.pc t = .polled events) :
      NetpollStep s (.resume t) (s.wake t events)
  | arrive (d : D) (data : List UInt8) : NetpollStep s (.arrive d data) (s.arrive d data, [])
  | interrupt (d : D) (events : UInt32) :
      NetpollStep s (.interrupt d events) (s.interrupt d events, [])

/-- **Every step of the poller is one of these.** -/
theorem netpollStep (move : NetpollMove D T) (s : Netpoll D T) :
    NetpollStep s move (s.step move) := by
  cases move with
  | read t gid d =>
    unfold Netpoll.step
    dsimp only
    split
    · next hpc =>
        unfold Netpoll.test
        split
        · exact .consume t gid d
        · next hnot =>
            refine .pass t gid d hpc fun hready => ?_
            exact List.eq_nil_of_length_eq_zero
              (Nat.eq_zero_of_not_pos fun hpos => hnot ⟨hready, hpos⟩)
    · exact .busyRead t gid d
  | poll t timedOut =>
    unfold Netpoll.step
    dsimp only
    split
    · next hpc =>
        unfold Netpoll.wait
        split
        · exact .busyPoll t timedOut
        · next events ep hwait =>
            obtain ⟨hready, hinterest⟩ := epollWait_cases hwait
            exact .wait t timedOut events ep hpc hready hinterest
    · exact .busyPoll t timedOut
  | resume t =>
    unfold Netpoll.step
    dsimp only
    cases hpc : s.pc t with
    | idle => exact .idle t hpc
    | parking gid d => exact .park t gid d hpc
    | registering d wakeCh => exact .register t d wakeCh hpc
    | polled events => exact .wake t events hpc
  | arrive d data => exact .arrive d data
  | interrupt d events => exact .interrupt d events

/-- The run with one step more. -/
theorem runNetpoll_concat {fds : D → FileDescriptor} (done : List (NetpollMove D T))
    (move : NetpollMove D T) :
    runNetpoll fds (done ++ [move]) = (((runNetpoll fds done).1.step move).1,
      (runNetpoll fds done).2 ++ ((runNetpoll fds done).1.step move).2) :=
  eventRun_concat done move

end NetpollMoves

end OsSimulator.Interface
