import OsSimulator.Model.Epoll

/-!
# What the calls of epoll do

`EpollCtl` changes one entry of the interest list or fails, an interrupt appends one event if its
descriptor is registered, and taking events cuts off a front part of the ready list.
-/

set_option autoImplicit false

namespace OsSimulator.Interface

open Model

section EpollCalls

variable {D : Type*} {ep ep' : Epoll D} {fd : FileDescriptor} {event : Option (EpollEvent D)}
  {entry : Option (EpollEvent D)} {maxEvents : ℤ} {returned : List (EpollEvent D)}

/-- The instance with one entry of the interest list replaced. -/
def setInterest (ep : Epoll D) (number : ℤ) (entry : Option (Option (EpollEvent D))) : Epoll D :=
  { ep with interestList := Function.update ep.interestList number entry }

/-- `ADD` registers a new descriptor. -/
theorem epollCtl_add_new (h : ep.interestList fd.fd = none) :
    ep.epollCtl .add fd event = (none, setInterest ep fd.fd (some event)) := by
  simp only [Epoll.epollCtl, h]
  rfl

/-- `ADD` of a registered descriptor fails. -/
theorem epollCtl_add_exists (h : ep.interestList fd.fd = some entry) :
    ep.epollCtl .add fd event = (some (errEEXIST fd.fd), ep) := by
  simp only [Epoll.epollCtl, h]
  rfl

/-- `MOD` replaces the event of a registered descriptor. -/
theorem epollCtl_mod_exists (h : ep.interestList fd.fd = some entry) :
    ep.epollCtl .mod fd event = (none, setInterest ep fd.fd (some event)) := by
  simp only [Epoll.epollCtl, h]
  rfl

/-- `MOD` of an unknown descriptor fails. -/
theorem epollCtl_mod_missing (h : ep.interestList fd.fd = none) :
    ep.epollCtl .mod fd event = (some (errENOENT fd.fd), ep) := by
  simp only [Epoll.epollCtl, h]
  rfl

/-- `DEL` forgets a registered descriptor. -/
theorem epollCtl_del_exists (h : ep.interestList fd.fd = some entry) :
    ep.epollCtl .del fd event = (none, setInterest ep fd.fd none) := by
  simp only [Epoll.epollCtl, h]
  rfl

/-- `DEL` of an unknown descriptor fails. -/
theorem epollCtl_del_missing (h : ep.interestList fd.fd = none) :
    ep.epollCtl .del fd event = (some (errENOENT fd.fd), ep) := by
  simp only [Epoll.epollCtl, h]
  rfl

/-- `DEL` leaves the other descriptors alone. -/
theorem interestList_del_of_ne {number : ℤ} (hne : number ≠ fd.fd) :
    (ep.epollCtl .del fd event).2.interestList number = ep.interestList number := by
  cases hentry : ep.interestList fd.fd with
  | none => rw [epollCtl_del_missing hentry]
  | some entry =>
    rw [epollCtl_del_exists hentry]
    exact Function.update_of_ne hne _ _

/-- After an attempt to add a descriptor, its number is registered. -/
theorem isSome_add_self (ep : Epoll D) (fd : FileDescriptor) (event : Option (EpollEvent D)) :
    ((ep.epollCtl .add fd event).2.interestList fd.fd).isSome := by
  cases hentry : ep.interestList fd.fd with
  | none =>
    rw [epollCtl_add_new hentry]
    simp [setInterest]
  | some entry =>
    rw [epollCtl_add_exists hentry, hentry]
    rfl

/-- `ADD` forgets no descriptor. -/
theorem isSome_add_of_isSome {number : ℤ} (h : (ep.interestList number).isSome) :
    ((ep.epollCtl .add fd event).2.interestList number).isSome := by
  by_cases hnumber : number = fd.fd
  · rw [hnumber]
    exact isSome_add_self ep fd event
  · cases hentry : ep.interestList fd.fd with
    | none =>
      rw [epollCtl_add_new hentry]
      simpa [setInterest, hnumber] using h
    | some entry =>
      rw [epollCtl_add_exists hentry]
      exact h

/-- `EpollCtl` changes nothing but the interest list. -/
theorem epollCtl_frame (op : EpollCtlOp) (fd : FileDescriptor) (event : Option (EpollEvent D))
    (ep : Epoll D) :
    ∃ interest, (ep.epollCtl op fd event).2 = { ep with interestList := interest } := by
  unfold Epoll.epollCtl
  cases op with
  | add => dsimp only; split <;> exact ⟨_, rfl⟩
  | mod => dsimp only; split <;> exact ⟨_, rfl⟩
  | del => dsimp only; split <;> exact ⟨_, rfl⟩
  | other => exact ⟨_, rfl⟩

/-- A negative count is a slice out of range. -/
theorem takeReady_negative (h : maxEvents < 0) : ep.takeReady maxEvents = none := by
  have hmore : (ep.readyList.length : ℤ) > maxEvents := by omega
  simp only [Epoll.takeReady, if_pos hmore, if_pos h]

/-- The first `maxEvents` events are returned, or all if there are fewer. -/
theorem takeReady_nonneg (h : 0 ≤ maxEvents) :
    ep.takeReady maxEvents = some (ep.readyList.take maxEvents.toNat,
      { ep with readyList := ep.readyList.drop maxEvents.toNat }) := by
  by_cases hmore : (ep.readyList.length : ℤ) > maxEvents
  · have hcount : ¬ maxEvents < 0 := by omega
    simp only [Epoll.takeReady, if_pos hmore, if_neg hcount]
  · have hcount : ¬ (ep.readyList.length : ℤ) < 0 := by omega
    have hall : ep.readyList.length ≤ maxEvents.toNat := by omega
    simp only [Epoll.takeReady, if_neg hmore, if_neg hcount, Int.toNat_natCast, List.take_length,
      List.drop_length, List.take_of_length_le hall, List.drop_eq_nil_of_le hall]

/-- What is returned is a front part of the ready list. -/
theorem takeReady_cases (h : ep.takeReady maxEvents = some (returned, ep')) :
    ep.readyList = returned ++ ep'.readyList ∧ ep'.interestList = ep.interestList := by
  rcases Int.lt_or_le maxEvents 0 with hneg | hnonneg
  · rw [takeReady_negative hneg] at h
    cases h
  · rw [takeReady_nonneg hnonneg] at h
    cases h
    exact ⟨(List.take_append_drop _ _).symm, rfl⟩

/-- A wait returns a front part of the ready list, which keeps the rest. -/
theorem epollWait_cases {timedOut : Bool}
    (h : ep.epollWait maxEvents timedOut = some (returned, ep')) :
    ep.readyList = returned ++ ep'.readyList ∧ ep'.interestList = ep.interestList := by
  unfold Epoll.epollWait at h
  split at h
  · exact takeReady_cases h
  · split at h
    · obtain ⟨hready, hinterest⟩ := takeReady_cases h
      exact ⟨hready, hinterest⟩
    · cases h
      exact ⟨rfl, rfl⟩

/-- A wait with room for all events returns all of them. -/
theorem epollWait_all (ep : Epoll D) :
    ∃ ep', ep.epollWait ep.readyList.length true = some (ep.readyList, ep') := by
  unfold Epoll.epollWait Epoll.takeReady
  by_cases hsome : ep.readyList.length > 0
  · rw [if_pos hsome]
    simp
  · have hnil : ep.readyList = [] := List.eq_nil_of_length_eq_zero (by omega)
    rw [if_neg hsome]
    simp [hnil]

variable [DecidableEq D] {d : D} {events : UInt32} {fds : D → FileDescriptor}

/-- A descriptor keeps its number when it becomes ready. -/
theorem markReady_fd (d : D) (fds : D → FileDescriptor) (x : D) :
    (Epoll.markReady d fds x).fd = (fds x).fd := by
  unfold Epoll.markReady
  by_cases hx : x = d
  · rw [hx, Function.update_self]
  · rw [Function.update_of_ne hx]

/-- An interrupt of a registered descriptor appends an event and signals. -/
theorem notify_registered (h : ep.interestList (fds d).fd = some entry) :
    ep.notifyDeviceInterrupt d events fds =
      (Epoll.markReady d fds, (ep.pushReady d events).sendWake) := by
  unfold Epoll.notifyDeviceInterrupt
  rw [h]
  rfl

/-- An interrupt of an unregistered descriptor is lost. -/
theorem notify_unregistered (h : ep.interestList (fds d).fd = none) :
    ep.notifyDeviceInterrupt d events fds = (fds, ep) := by
  unfold Epoll.notifyDeviceInterrupt
  rw [h]
  rfl

/-- An interrupt registers nothing. -/
theorem notify_interestList (d : D) (events : UInt32) (fds : D → FileDescriptor) (ep : Epoll D) :
    (ep.notifyDeviceInterrupt d events fds).2.interestList = ep.interestList := by
  unfold Epoll.notifyDeviceInterrupt
  split <;> rfl

/-- An interrupt does not touch data. -/
theorem notify_dataBuffer (d : D) (events : UInt32) (fds : D → FileDescriptor) (ep : Epoll D)
    (x : D) : ((ep.notifyDeviceInterrupt d events fds).1 x).dataBuffer = (fds x).dataBuffer := by
  unfold Epoll.notifyDeviceInterrupt
  split
  · by_cases hx : x = d
    · simp [Epoll.markReady, hx]
    · simp [Epoll.markReady, hx]
  · rfl

/-- An interrupt makes no descriptor unready. -/
theorem notify_isReady {x : D} (h : (fds x).isReady = true) :
    ((ep.notifyDeviceInterrupt d events fds).1 x).isReady = true := by
  unfold Epoll.notifyDeviceInterrupt
  split
  · by_cases hx : x = d
    · simp [Epoll.markReady, hx]
    · simpa [Epoll.markReady, hx] using h
  · exact h

end EpollCalls

end OsSimulator.Interface
