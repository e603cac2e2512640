import OsSimulator.Interface.EpollCalls
import OsSimulator.Library.EventRun

/-!
# What `EpollWait` reports against what is registered

The interest list is looked at when an interrupt comes, and not again when its event is handed out;
and the bits of the interrupt are not compared with the registered ones at all.  So an event may be
reported after its descriptor was deleted, or with bits nobody asked for
(`reported_unregistered`).

In exactly the clean histories (`CleanCall`) every report is of registered events: the bits of an
interrupt are registered, and a registration is deleted or narrowed only while no event of it is
pending.
-/

set_option autoImplicit false

namespace OsSimulator.Analysis

open Model Interface Library

section Epoll

variable {D : Type*}

/-! ## The specification -/

/-- The bits of an entry of the interest list; a nil pointer has none. -/
def registeredBits (entry : Option (EpollEvent D)) : UInt32 := (entry.map EpollEvent.events).getD 0

/-- The descriptor of the event is in the interest list, with all bits of the event. -/
def Registered (s : EpollSystem D) (ev : EpollEvent D) : Prop :=
  ∃ entry, s.ep.interestList (s.fds ev.fd).fd = some entry ∧
    ev.events &&& registeredBits entry = ev.events

/-- Every `EpollWait` that may be called now returns registered events only. -/
def ReportsRegistered (s : EpollSystem D) : Prop :=
  ∀ maxEvents timedOut returned ep, s.ep.epollWait maxEvents timedOut = some (returned, ep) →
    ∀ ev ∈ returned, Registered s ev

/-- The call keeps the pending events registered. -/
def CleanCall (s : EpollSystem D) : EpollCall D → Prop
  | .ctl .mod d event => (s.ep.interestList (s.fds d).fd).isSome →
      ∀ ev ∈ s.ep.readyList, (s.fds ev.fd).fd = (s.fds d).fd →
        ev.events &&& registeredBits event = ev.events
  | .ctl .del d _ => (s.ep.interestList (s.fds d).fd).isSome →
      ∀ ev ∈ s.ep.readyList, (s.fds ev.fd).fd ≠ (s.fds d).fd
  | .notify d events => ∀ entry, s.ep.interestList (s.fds d).fd = some entry →
      events &&& registeredBits entry = events
  | _ => True

/-! ## The ready list -/

def AllRegistered (s : EpollSystem D) : Prop := ∀ ev ∈ s.ep.readyList, Registered s ev

theorem reportsRegistered_iff (s : EpollSystem D) : ReportsRegistered s ↔ AllRegistered s := by
  constructor
  · intro h ev hev
    obtain ⟨ep', hwait⟩ := epollWait_all s.ep
    exact h _ _ _ _ hwait ev hev
  · intro h maxEvents timedOut returned ep hwait ev hev
    refine h ev ?_
    rw [(epollWait_cases hwait).1]
    exact List.mem_append_left _ hev

/-! ## One call -/

variable {s s' : EpollSystem D} {d : D}

theorem registered_congr {ev : EpollEvent D}
    (hentry : s'.ep.interestList (s'.fds ev.fd).fd = s.ep.interestList (s.fds ev.fd).fd) :
    Registered s' ev ↔ Registered s ev := by
  unfold Registered
  rw [hentry]

/-- One entry of the interest list is replaced. -/
theorem allRegistered_setInterest (h : AllRegistered s)
    (entry : Option (Option (EpollEvent D))) :
    AllRegistered { s with ep := setInterest s.ep (s.fds d).fd entry } ↔
      ∀ ev ∈ s.ep.readyList, (s.fds ev.fd).fd = (s.fds d).fd →
        ∃ e, entry = some e ∧ ev.events &&& registeredBits e = ev.events := by
  refine forall_congr' fun ev => forall_congr' fun hev => ?_
  by_cases hnumber : (s.fds ev.fd).fd = (s.fds d).fd
  · unfold Registered
    simp only [setInterest, hnumber, Function.update_self, true_implies]
  · refine iff_of_true ((registered_congr ?_).mpr (h ev hev)) fun heq => absurd heq hnumber
    exact Function.update_of_ne hnumber _ _

theorem ctl_keeps_iff (h : AllRegistered s) (op : EpollCtlOp) (d : D)
    (event : Option (EpollEvent D)) :
    AllRegistered { s with ep := (s.ep.epollCtl op (s.fds d) event).2 } ↔
      CleanCall s (.ctl op d event) := by
  cases op with
  | add =>
    refine iff_of_true ?_ trivial
    cases hentry : s.ep.interestList (s.fds d).fd with
    | some entry =>
      rw [epollCtl_add_exists hentry]
      exact h
    | none =>
      rw [epollCtl_add_new hentry]
      refine (allRegistered_setInterest h _).mpr fun ev hev hnumber => ?_
      -- a pending event of the descriptor would be registered
      obtain ⟨entry, hsome, -⟩ := h ev hev
      rw [hnumber, hentry] at hsome
      cases hsome
  | mod =>
    simp only [CleanCall]
    cases hentry : s.ep.interestList (s.fds d).fd with
    | none =>
      rw [epollCtl_mod_missing hentry]
      exact iff_of_true h fun hsome => by cases hsome
    | some entry =>
      rw [epollCtl_mod_exists hentry]
      refine (allRegistered_setInterest h _).trans ?_
      simp
  | del =>
    simp only [CleanCall]
    cases hentry : s.ep.interestList (s.fds d).fd with
    | none =>
      rw [epollCtl_del_missing hentry]
      exact iff_of_true h fun hsome => by cases hsome
    | some entry =>
      rw [epollCtl_del_exists hentry]
      refine (allRegistered_setInterest h _).trans ?_
      simp
  | other => exact iff_of_true h trivial

variable [DecidableEq D]

theorem notify_keeps_iff (h : AllRegistered s) (d : D) (events : UInt32) :
    AllRegistered { ep := (s.ep.notifyDeviceInterrupt d events s.fds).2
                    fds := (s.ep.notifyDeviceInterrupt d events s.fds).1 } ↔
      CleanCall s (.notify d events) := by
  simp only [CleanCall]
  cases hentry : s.ep.interestList (s.fds d).fd with
  | none =>
    rw [notify_unregistered hentry]
    exact iff_of_true h fun entry hsome => by cases hsome
  | some entry =>
    rw [notify_registered hentry]
    have hold : ∀ ev, Registered { ep := (s.ep.pushReady d events).sendWake
                                   fds := Epoll.markReady d s.fds } ev ↔ Registered s ev := by
      intro ev
      refine registered_congr ?_
      simp only [markReady_fd]
      rfl
    have hnew : Registered s ⟨events, d⟩ ↔ events &&& registeredBits entry = events := by
      unfold Registered
      simp [hentry]
    constructor
    · intro hall entry' hentry'
      cases hentry'
      exact hnew.mp ((hold _).mp (hall ⟨events, d⟩ (by simp [Epoll.pushReady, Epoll.sendWake])))
    · intro hclean ev hev
      refine (hold ev).mpr ?_
      rcases List.mem_append.mp hev with hev | hev
      · exact h ev hev
      · rw [List.mem_singleton.mp hev]
        exact hnew.mpr (hclean entry rfl)

/-- **A call keeps the pending events registered exactly when it is clean.** -/
theorem step_keeps_iff (h : AllRegistered s) {call : EpollCall D} (hstep : s.step call = some s') :
    AllRegistered s' ↔ CleanCall s call := by
  cases call with
  | ctl op d event =>
    cases hstep
    exact ctl_keeps_iff h op d event
  | notify d events =>
    cases hstep
    exact notify_keeps_iff h d events
  | wait maxEvents timedOut =>
    obtain ⟨⟨returned, ep⟩, hwait, rfl⟩ := Option.map_eq_some_iff.mp hstep
    obtain ⟨hready, hinterest⟩ := epollWait_cases hwait
    refine iff_of_true (fun ev hev => (registered_congr ?_).mpr (h ev ?_)) trivial
    · simp only [hinterest]
    · rw [hready]
      exact List.mem_append_right _ hev

/-! ## Whole histories -/

variable {fds : D → FileDescriptor}

theorem runEpoll_concat (calls : List (EpollCall D)) (call : EpollCall D) :
    runEpoll fds (calls ++ [call]) = (runEpoll fds calls).bind (·.step call) := by
  unfold runEpoll
  rw [List.foldlM_append]
  cases List.foldlM EpollSystem.step { fds } calls with
  | none => rfl
  | some s =>
    show List.foldlM EpollSystem.step s [call] = s.step call
    rw [List.foldlM_cons]
    cases s.step call <;> rfl

/-- **Epoll reports only what is registered in exactly the clean histories**: every `EpollWait` that
may be called at any point of a history returns events of registered descriptors with registered
bits only, if and only if every call of the history is clean.
SOURCE: pkg/io/epoll.go:56-135 -/
theorem epoll_reports_registered (fds : D → FileDescriptor) (calls : List (EpollCall D)) :
    (∀ done, done <+: calls → ∀ s, runEpoll fds done = some s → ReportsRegistered s) ↔
      ∀ done call, done ++ [call] <+: calls → ∀ s, runEpoll fds done = some s →
        CleanCall s call := by
  refine always_iff_clean (fun done => ∀ s, runEpoll fds done = some s → ReportsRegistered s)
    (fun done call => ∀ s, runEpoll fds done = some s → CleanCall s call) ?_ ?_ calls
  · rintro s hs
    cases hs
    exact (reportsRegistered_iff _).mpr fun ev hev => absurd hev List.not_mem_nil
  · intro done call hgood
    rw [runEpoll_concat]
    cases hrun : runEpoll fds done with
    | none => simp
    | some s =>
      have hall := (reportsRegistered_iff s).mp (hgood s hrun)
      simp only [Option.bind_some, Option.some.injEq, forall_eq']
      cases hstep : s.step call with
      | none =>
        -- only a wait can panic
        refine iff_of_true (fun s' hs' => by cases hs') ?_
        cases call with
        | ctl op d event => cases hstep
        | notify d events => cases hstep
        | wait maxEvents timedOut => trivial
      | some s' =>
        simp only [Option.some.injEq, forall_eq']
        exact (reportsRegistered_iff s').trans (step_keeps_iff hall hstep)

end Epoll

/-! ## The two ways out -/

/-- The events of a call of `EpollWait` with room for all of them, and what is registered under the
number 10 when they are returned. -/
def reportOf (calls : List (EpollCall Unit)) :
    Option (List (EpollEvent Unit) × Option (Option (EpollEvent Unit))) := do
  let s ← runEpoll (fun _ => { fd := 10 }) calls
  let r ← s.ep.epollWait 10 false
  return (r.1, r.2.interestList 10)

/-- **An event is reported for a descriptor that is no longer registered, and with bits that never
were**: in the first history descriptor 10 is deleted between the interrupt and the wait, in the
second the interrupt carries `EPOLLOUT` and the descriptor is registered for `EPOLLIN`.
SOURCE: pkg/io/epoll.go:72-76, 88-94 -/
theorem reported_unregistered :
    reportOf [.ctl .add () (some ⟨epollIn, ()⟩), .notify () epollIn, .ctl .del () none] =
      some ([⟨epollIn, ()⟩], none) ∧
    reportOf [.ctl .add () (some ⟨epollIn, ()⟩), .notify () epollOut] =
      some ([⟨epollOut, ()⟩], some (some ⟨epollIn, ()⟩)) ∧
    epollOut &&& registeredBits (some (⟨epollIn, ()⟩ : EpollEvent Unit)) ≠ epollOut := by
  decide

end OsSimulator.Analysis
