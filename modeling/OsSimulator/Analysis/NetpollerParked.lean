import OsSimulator.Library.Census
import OsSimulator.Library.Custody
import OsSimulator.Interface.NetpollMoves

/-!
# Where the parked goroutines of the network poller are

`ParkedGs` has one entry for each descriptor number, so a goroutine that parks on a number that has
an entry already pushes the other one out: nobody will ever wake it (`parked_overwritten`).

The channel of every goroutine that was parked is held in one place at a time: in the entry of its
number, among those returned by `PollAndWakeup`, or among the lost (`ParkLedger`).  Parking brings
in a new channel and may move another one to the lost, waking moves one from its entry to the
returned ones.  So the books of the poller are right in exactly the runs in which no goroutine is
pushed out.
-/

set_option autoImplicit false

namespace OsSimulator.Analysis

open Model Interface Library

section NetpollerParked

variable {D T : Type*}

/-! ## The specification -/

/-- The channels of the goroutines that `PollAndWakeup` has returned. -/
def wokenChannels (reports : List NetpollReport) : List ℕ :=
  reports.flatMap fun
    | .woken wokenGs => wokenGs.map (·.wakeCh)
    | _ => []

/-- The channels of the goroutines whose `ReadNonBlocking` has returned false. -/
def blockedChannels (reports : List NetpollReport) : List ℕ :=
  reports.flatMap fun
    | .blocked wakeCh => [wakeCh]
    | _ => []

/-- The goroutine with channel `k` is in `ParkedGs`. -/
def InParkedGs (np : GoNetpoller D) (k : ℕ) : Prop :=
  ∃ number parked, np.parkedGs number = some parked ∧ parked.wakeCh = k

/-- The totals agree with `ParkedGs`, and every goroutine whose `ReadNonBlocking` returned false is
either still there or was returned once. -/
def BooksRight (np : GoNetpoller D) (reports : List NetpollReport) : Prop :=
  (∃ n, HasCount (fun number => (np.parkedGs number).isSome) n ∧
    np.totalParked = np.totalWoken + n) ∧
  ∀ k ∈ blockedChannels reports,
    InParkedGs np k ∧ (wokenChannels reports).count k = 0 ∨
      ¬ InParkedGs np k ∧ (wokenChannels reports).count k = 1

/-- A goroutine is parked on a number that has an entry. -/
def Overwrites (s : Netpoll D T) (move : NetpollMove D T) : Prop :=
  ∃ t gid d, move = .resume t ∧ s.pc t = .parking gid d ∧ (s.np.parkedGs (s.fds d).fd).isSome

/-! ## The ledger -/

inductive ParkPlace where
  | entry (number : ℤ)
  | woken
  | lost

def parkPlaces (parkedGs : ℤ → Option NetpollerGoroutine) (woken lost : List ℕ) :
    ParkPlace → List ℕ
  | .entry number => (parkedGs number).toList.map (·.wakeCh)
  | .woken => woken
  | .lost => lost

structure ParkLedger (np : GoNetpoller D) (woken lost : List ℕ) : Prop where
  custody : Custody (parkPlaces np.parkedGs woken lost) {k | k < np.totalParked} fun _ _ => True
  count : ∃ n, HasCount (fun number => (np.parkedGs number).isSome = true) n ∧
    np.totalParked = np.totalWoken + n + lost.length

variable {np : GoNetpoller D} {woken lost : List ℕ}

theorem parkLedger_new : ParkLedger ({} : GoNetpoller D) [] [] := by
  refine ⟨⟨fun k => ?_, ?_, ?_, ?_⟩, 0, hasCount_zero fun number => Bool.false_ne_true, rfl⟩
  · refine iff_of_false (Nat.not_lt_zero k) ?_
    rintro ⟨place, h⟩
    cases place <;> exact List.not_mem_nil h
  · intro k place _ h
    cases place <;> exact absurd h List.not_mem_nil
  · intro place
    cases place <;> exact List.nodup_nil
  · exact fun _ _ _ => trivial

section HandOver

variable {parkedGs : ℤ → Option NetpollerGoroutine} {live : Set ℕ} {number : ℤ}
  {parked : NetpollerGoroutine}

theorem parkPlaces_entry_of_ne {entry : Option NetpollerGoroutine} {woken' lost' : List ℕ} {n : ℤ}
    (hn : ParkPlace.entry n ≠ .entry number) :
    parkPlaces (Function.update parkedGs number entry) woken' lost' (.entry n) =
      parkPlaces parkedGs woken lost (.entry n) := by
  have hne : n ≠ number := fun heq => hn (by rw [heq])
  simp only [parkPlaces, Function.update_of_ne hne]

/-- An entry is emptied, and its channel is returned or lost. -/
theorem custody_unpark (h : Custody (parkPlaces parkedGs woken lost) live fun _ _ => True)
    (hparked : parkedGs number = some parked) {woken' lost' : List ℕ}
    (hgone : woken' = woken ++ [parked.wakeCh] ∧ lost' = lost ∨
      woken' = woken ∧ lost' = lost ++ [parked.wakeCh]) :
    Custody (parkPlaces (Function.update parkedGs number none) woken' lost') live
      fun _ _ => True := by
  have hentry : (parkPlaces parkedGs woken lost (.entry number)).Perm (parked.wakeCh ::
      parkPlaces (Function.update parkedGs number none) woken' lost' (.entry number)) := by
    simp [parkPlaces, hparked]
  rcases hgone with ⟨rfl, rfl⟩ | ⟨rfl, rfl⟩
  · refine h.handOver (d := .woken) (fun heq => by cases heq) hentry
      (List.perm_append_singleton ..) (fun place hc hd => ?_) (fun _ _ _ _ _ => trivial) trivial
    cases place with
    | entry n => exact parkPlaces_entry_of_ne hc
    | woken => exact absurd rfl hd
    | lost => rfl
  · refine h.handOver (d := .lost) (fun heq => by cases heq) hentry
      (List.perm_append_singleton ..) (fun place hc hd => ?_) (fun _ _ _ _ _ => trivial) trivial
    cases place with
    | entry n => exact parkPlaces_entry_of_ne hc
    | woken => rfl
    | lost => exact absurd rfl hd

/-- An empty entry is filled with a new channel. -/
theorem custody_park (parked : NetpollerGoroutine)
    (h : Custody (parkPlaces parkedGs woken lost) live fun _ _ => True)
    (hempty : parkedGs number = none)
    (hnew : parked.wakeCh ∉ live) :
    Custody (parkPlaces (Function.update parkedGs number (some parked)) woken lost)
      (insert parked.wakeCh live) fun _ _ => True := by
  refine h.put (d := .entry number) hnew ?_ (fun place hplace => ?_) trivial
  · simp [parkPlaces, hempty]
  · cases place with
    | entry n => exact parkPlaces_entry_of_ne hplace
    | woken => rfl
    | lost => rfl

end HandOver

variable {parked : NetpollerGoroutine} {fd : FileDescriptor}

/-- The number of entries after one is emptied. -/
theorem count_emptied {parkedGs : ℤ → Option NetpollerGoroutine} {number : ℤ} {n : ℕ}
    (hn : HasCount (fun i => (parkedGs i).isSome = true) n)
    (hparked : parkedGs number = some parked) :
    0 < n ∧ HasCount (fun i => (Function.update parkedGs number none i).isSome = true) (n - 1) := by
  have hentry : (parkedGs number).isSome = true := by
    rw [hparked]
    rfl
  exact ⟨hn.pos hentry, HasCount.update_leave (R := fun _ o => Option.isSome o = true) hn hentry
    Bool.false_ne_true⟩

theorem ParkLedger.unpark (h : ParkLedger np woken lost)
    (hparked : np.parkedGs fd.fd = some parked) :
    ParkLedger (unpark fd np) (woken ++ [parked.wakeCh]) lost := by
  obtain ⟨n, hn, htotal⟩ := h.count
  obtain ⟨hpos, hcount⟩ := count_emptied hn hparked
  refine ⟨custody_unpark h.custody hparked (.inl ⟨rfl, rfl⟩), n - 1, hcount, ?_⟩
  show np.totalParked = np.totalWoken + 1 + (n - 1) + lost.length
  omega

theorem ParkLedger.park (h : ParkLedger np woken lost) (gid : ℤ)
    (hempty : np.parkedGs fd.fd = none) : ParkLedger (np.park gid fd) woken lost := by
  obtain ⟨n, hn, htotal⟩ := h.count
  have hcount : HasCount (fun i => ((np.park gid fd).parkedGs i).isSome = true) (n + 1) := by
    refine HasCount.update_enter (R := fun _ o => Option.isSome o = true) hn ?_ rfl
    rw [hempty]
    exact Bool.false_ne_true
  refine ⟨?_, n + 1, hcount, ?_⟩
  · have hput := custody_park ⟨gid, fd.fd, np.totalParked⟩ h.custody hempty (Nat.lt_irrefl _)
    have hlive : {k | k < (np.park gid fd).totalParked} =
        insert np.totalParked {k | k < np.totalParked} := by
      ext k
      exact Nat.lt_succ_iff_lt_or_eq.trans or_comm
    rw [hlive]
    exact hput
  · show np.totalParked + 1 = np.totalWoken + (n + 1) + lost.length
    omega

/-- A goroutine pushes another one out. -/
theorem ParkLedger.overwrite (h : ParkLedger np woken lost) (gid : ℤ)
    (hparked : np.parkedGs fd.fd = some parked) :
    ParkLedger (np.park gid fd) woken (lost ++ [parked.wakeCh]) := by
  obtain ⟨n, hn, htotal⟩ := h.count
  obtain ⟨hpos, hcount⟩ := count_emptied hn hparked
  -- the entry is emptied first, and then filled
  have hcleared : ParkLedger { np with parkedGs := Function.update np.parkedGs fd.fd none } woken
      (lost ++ [parked.wakeCh]) := by
    refine ⟨custody_unpark h.custody hparked (.inr ⟨rfl, rfl⟩), n - 1, hcount, ?_⟩
    rw [List.length_append, List.length_singleton]
    show np.totalParked = np.totalWoken + (n - 1) + (lost.length + 1)
    omega
  have hempty : Function.update np.parkedGs fd.fd none fd.fd = none := Function.update_self ..
  have hpark := hcleared.park gid hempty
  unfold GoNetpoller.park at hpark ⊢
  simp only [Function.update_idem] at hpark
  exact hpark

/-! ## One step -/

variable [DecidableEq D] [DecidableEq T] {s : Netpoll D T} {move : NetpollMove D T}
  {r : Netpoll D T × List NetpollReport}

omit [DecidableEq D] in
theorem ParkLedger.wakeEvents (h : ParkLedger np woken lost) (fds : D → FileDescriptor)
    (events : List (EpollEvent D)) :
    ParkLedger (np.wakeEvents fds events).1
      (woken ++ (np.wakeEvents fds events).2.map (·.wakeCh)) lost := by
  refine wakeEvents_induction (P := fun np gs => ParkLedger np (woken ++ gs.map (·.wakeCh)) lost)
    ?_ ?_ events
  · rw [List.map_nil, List.append_nil]
    exact h
  · intro np gs d parked h hparked
    rw [List.map_append, ← List.append_assoc]
    exact h.unpark hparked

omit [DecidableEq D] [DecidableEq T] in
theorem not_overwrites {t : T} (hpc : ∀ gid d, s.pc t ≠ .parking gid d) :
    ¬ Overwrites s (.resume t) := by
  rintro ⟨t', gid, d, heq, ht, -⟩
  cases heq
  exact hpc gid d ht

/-- A step keeps the ledger, and loses a channel exactly if it overwrites an entry. -/
theorem ledger_step (h : NetpollStep s move r) (hledger : ParkLedger s.np woken lost) :
    ∃ lost', ParkLedger r.1.np (woken ++ wokenChannels r.2) lost' ∧
      (lost' = [] ↔ lost = [] ∧ ¬ Overwrites s move) := by
  have hstay : ¬ Overwrites s move → wokenChannels r.2 = [] → r.1.np.parkedGs = s.np.parkedGs →
      r.1.np.totalParked = s.np.totalParked → r.1.np.totalWoken = s.np.totalWoken →
      ∃ lost', ParkLedger r.1.np (woken ++ wokenChannels r.2) lost' ∧
        (lost' = [] ↔ lost = [] ∧ ¬ Overwrites s move) := by
    intro hno hnone hparked htotal hwoken
    refine ⟨lost, ?_, (and_iff_left hno).symm⟩
    rw [hnone, List.append_nil]
    constructor
    · rw [hparked, htotal]
      exact hledger.custody
    · rw [hparked, htotal, hwoken]
      exact hledger.count
  cases h with
  | busyRead | consume | pass | busyPoll | wait | arrive | interrupt =>
    exact hstay (fun ⟨_, _, _, heq, _⟩ => by cases heq) rfl rfl rfl rfl
  | idle t hpc =>
    refine hstay (not_overwrites fun _ _ h => ?_) rfl rfl rfl rfl
    cases hpc.symm.trans h
  | register t d k hpc =>
    refine hstay (not_overwrites fun _ _ h => ?_) rfl rfl rfl rfl
    cases hpc.symm.trans h
  | wake t events hpc =>
    refine ⟨lost, ?_, (and_iff_left (not_overwrites fun _ _ h => ?_)).symm⟩
    · have hwoken : wokenChannels [.woken (s.np.wakeEvents s.fds events).2] =
          (s.np.wakeEvents s.fds events).2.map (·.wakeCh) := List.append_nil _
      show ParkLedger (s.np.wakeEvents s.fds events).1 (woken ++ wokenChannels [.woken _]) lost
      rw [hwoken]
      exact hledger.wakeEvents s.fds events
    · cases hpc.symm.trans h
  | park t gid d hpc =>
    show ∃ lost', ParkLedger (s.np.park gid (s.fds d)) (woken ++ []) lost' ∧ _
    rw [List.append_nil]
    cases hparked : s.np.parkedGs (s.fds d).fd with
    | none =>
      refine ⟨lost, hledger.park gid hparked, (and_iff_left ?_).symm⟩
      rintro ⟨t', gid', d', heq, ht, hsome⟩
      cases heq
      cases hpc.symm.trans ht
      rw [hparked] at hsome
      cases hsome
    | some parked =>
      refine ⟨lost ++ [parked.wakeCh], hledger.overwrite gid hparked, ?_⟩
      refine iff_of_false (by simp) fun ⟨_, hno⟩ => hno ?_
      exact ⟨t, gid, d, rfl, hpc, by rw [hparked]; rfl⟩

/-! ## Channels of calls that have returned -/

/-- Only channels that were made are known. -/
def ChannelsMade (s : Netpoll D T) (blocked : List ℕ) : Prop :=
  (∀ k ∈ blocked, k < s.np.totalParked) ∧
    ∀ t d k, s.pc t = .registering d k → k < s.np.totalParked

omit [DecidableEq D] in
theorem totalParked_wakeEvents (fds : D → FileDescriptor) (events : List (EpollEvent D))
    (np : GoNetpoller D) : (np.wakeEvents fds events).1.totalParked = np.totalParked :=
  wakeEvents_induction (P := fun np' _ => np'.totalParked = np.totalParked) rfl
    (fun _ _ _ _ h _ => h) events

omit [DecidableEq D] [DecidableEq T] in
theorem ChannelsMade.next {blocked new : List ℕ} {s' : Netpoll D T} (h : ChannelsMade s blocked)
    (htotal : s.np.totalParked ≤ s'.np.totalParked)
    (hpc : ∀ t d k, s'.pc t = .registering d k →
      s.pc t = .registering d k ∨ k < s'.np.totalParked)
    (hnew : ∀ k ∈ new, k < s'.np.totalParked) : ChannelsMade s' (blocked ++ new) := by
  constructor
  · intro k hk
    rcases List.mem_append.mp hk with hk | hk
    · exact Nat.lt_of_lt_of_le (h.1 k hk) htotal
    · exact hnew k hk
  · intro t d k ht
    rcases hpc t d k ht with ht | hk
    · exact Nat.lt_of_lt_of_le (h.2 t d k ht) htotal
    · exact hk

theorem channelsMade_step {blocked : List ℕ} (h : NetpollStep s move r)
    (hmade : ChannelsMade s blocked) : ChannelsMade r.1 (blocked ++ blockedChannels r.2) := by
  cases h with
  | busyRead | busyPoll | idle | consume | arrive | interrupt =>
    exact hmade.next (Nat.le_refl _) (fun _ _ _ h => .inl h) (by simp [blockedChannels])
  | pass | wait =>
    refine hmade.next (Nat.le_refl _) (fun _ _ _ h => .inl ?_) (by simp [blockedChannels])
    exact (eq_of_update h (fun heq => by cases heq)).2
  | wake t events =>
    refine hmade.next ?_ (fun _ _ _ h => .inl ?_) (by simp [blockedChannels, Netpoll.wake])
    · exact Nat.le_of_eq (totalParked_wakeEvents s.fds events s.np).symm
    · exact (eq_of_update h (fun heq => by cases heq)).2
  | register t d k hpc =>
    refine hmade.next (Nat.le_refl _) (fun _ _ _ h => .inl ?_) fun k' hk' => ?_
    · exact (eq_of_update h (fun heq => by cases heq)).2
    · rw [List.mem_singleton.mp hk']
      exact hmade.2 t d k hpc
  | park t gid d hpc =>
    refine hmade.next (Nat.le_succ _) (fun u d' k h => ?_)
      (by simp [blockedChannels, Netpoll.park])
    by_cases hu : u = t
    · rw [hu] at h
      have hreg : NetpollPc.registering d s.np.totalParked = .registering d' k :=
        (Function.update_self t _ s.pc).symm.trans h
      cases hreg
      exact .inr (Nat.lt_succ_self _)
    · exact .inl ((Function.update_of_ne hu _ s.pc).symm.trans h)

/-! ## Whole runs -/

variable {fds : D → FileDescriptor}

/-- Nothing is overwritten on the way. -/
def NeverOverwrites (fds : D → FileDescriptor) (schedule : List (NetpollMove D T)) : Prop :=
  ∀ done move, done ++ [move] <+: schedule → ¬ Overwrites (runNetpoll fds done).1 move

theorem run_ledger (fds : D → FileDescriptor) (schedule : List (NetpollMove D T)) :
    ∃ lost, ParkLedger (runNetpoll fds schedule).1.np
        (wokenChannels (runNetpoll fds schedule).2) lost ∧
      (lost = [] ↔ NeverOverwrites fds schedule) := by
  induction schedule using List.reverseRecOn with
  | nil =>
    refine ⟨[], parkLedger_new, iff_of_true rfl fun done move hpre => ?_⟩
    exact absurd (List.prefix_nil.mp hpre) (by simp)
  | append_singleton done move ih =>
    obtain ⟨lost, hledger, hlost⟩ := ih
    obtain ⟨lost', hledger', hlost'⟩ :=
      ledger_step (netpollStep move (runNetpoll fds done).1) hledger
    refine ⟨lost', ?_, ?_⟩
    · rw [runNetpoll_concat]
      unfold wokenChannels at hledger' ⊢
      rw [List.flatMap_append]
      exact hledger'
    · rw [hlost', hlost]
      exact steps_concat.symm

theorem run_channelsMade (fds : D → FileDescriptor) (schedule : List (NetpollMove D T)) :
    ChannelsMade (runNetpoll fds schedule).1 (blockedChannels (runNetpoll fds schedule).2) := by
  refine eventRun_induction (P := fun (s : Netpoll D T) reports =>
    ChannelsMade s (blockedChannels reports)) ⟨?_, ?_⟩ ?_ schedule
  · exact fun k hk => absurd hk List.not_mem_nil
  · exact fun t d k ht => by cases ht
  · intro s reports move hmade
    have hnext := channelsMade_step (netpollStep move s) hmade
    unfold blockedChannels at hnext ⊢
    rw [List.flatMap_append]
    exact hnext

omit [DecidableEq D] [DecidableEq T] in
/-- A ledger without losses. -/
theorem ParkLedger.place (h : ParkLedger np woken []) {k : ℕ} (hk : k < np.totalParked) :
    InParkedGs np k ∧ woken.count k = 0 ∨ ¬ InParkedGs np k ∧ woken.count k = 1 := by
  have hentry : ∀ number, k ∈ parkPlaces np.parkedGs woken [] (.entry number) ↔
      ∃ parked, np.parkedGs number = some parked ∧ parked.wakeCh = k := by
    intro number
    simp [parkPlaces]
  by_cases hwoken : k ∈ woken
  · refine .inr ⟨?_, List.count_eq_one_of_mem (h.custody.nodup .woken) hwoken⟩
    rintro ⟨number, hparked⟩
    cases h.custody.unique k (.entry number) .woken ((hentry number).mpr hparked) hwoken
  · refine .inl ⟨?_, List.count_eq_zero.mpr hwoken⟩
    obtain ⟨place, hplace⟩ := (h.custody.mem_iff k).mp hk
    cases place with
    | entry number => exact ⟨number, (hentry number).mp hplace⟩
    | woken => exact absurd hplace hwoken
    | lost => exact absurd hplace List.not_mem_nil

/-- **The books of the network poller are right after exactly the runs that overwrite no entry**:
`TotalParked = TotalWoken + len(ParkedGs)`, and every goroutine whose `ReadNonBlocking` returned
false is still in `ParkedGs` or was returned once by `PollAndWakeup`.
SOURCE: pkg/io/netpoller.go:44-93 -/
theorem netpoller_books (fds : D → FileDescriptor) (schedule : List (NetpollMove D T)) :
    BooksRight (runNetpoll fds schedule).1.np (runNetpoll fds schedule).2 ↔
      ∀ done move, done ++ [move] <+: schedule → ¬ Overwrites (runNetpoll fds done).1 move := by
  obtain ⟨lost, hledger, hlost⟩ := run_ledger fds schedule
  obtain ⟨n, hn, htotal⟩ := hledger.count
  refine Iff.trans ?_ hlost
  constructor
  · rintro ⟨⟨m, hm, hbalance⟩, -⟩
    have hsame := hm.unique hn
    exact List.eq_nil_of_length_eq_zero (by omega)
  · rintro rfl
    refine ⟨⟨n, hn, htotal⟩, fun k hk => hledger.place ?_⟩
    exact (run_channelsMade fds schedule).1 k hk

end NetpollerParked

/-! ## An overwritten entry -/

/-- Goroutines 1 and 2 read from descriptor 10 before any data is there; then it is interrupted, and
polled. -/
def twoReaders : Netpoll Unit (Fin 2) × List NetpollReport :=
  runNetpoll (fun _ => { fd := 10 })
    [.read 0 1 (), .resume 0, .resume 0, .read 1 2 (), .resume 1, .resume 1,
      .interrupt () epollIn, .poll 0 false, .resume 0]

/-- **A parked goroutine is forgotten**: both calls of `ReadNonBlocking` returned false, goroutine 2
was woken, goroutine 1 was not and is not in `ParkedGs` any more; the totals differ by one.
SOURCE: pkg/io/netpoller.go:57-62 -/
theorem parked_overwritten :
    twoReaders.2 = [.blocked 0, .blocked 1, .woken [⟨2, 10, 1⟩]] ∧
      (∀ number, twoReaders.1.np.parkedGs number = none) ∧
      twoReaders.1.np.totalParked = 2 ∧ twoReaders.1.np.totalWoken = 1 := by
  have hparked : twoReaders.1.np.parkedGs =
      Function.update (Function.update (Function.update (fun _ => none) 10 (some ⟨1, 10, 0⟩)) 10
        (some ⟨2, 10, 1⟩)) 10 none := rfl
  refine ⟨by decide, fun number => ?_, by decide⟩
  rw [hparked, Function.update_idem, Function.update_idem]
  exact congrFun (Function.update_eq_self (10 : ℤ) fun _ => none) number

end OsSimulator.Analysis
