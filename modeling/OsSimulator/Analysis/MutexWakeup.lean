import OsSimulator.Model.Mutex
import OsSimulator.Library.Census
import Mathlib.Logic.Relation

/-!
# Wake-ups of the blocking mutex

The CAS of `Lock` and the critical section that queues the wait node are two steps.
When the lock is released between them, the thread queues itself on a free lock, marks
it as locked, and waits for an `Unlock` that nobody owes (`lostWakeup_two_threads`);
from then on no thread ever gets the lock (`no_holder_after_lostWakeup`).

That window is the only way to lose a wake-up: in every run whose enqueues all happen
while the lock word is non-zero, a parked thread has somebody to wake it
(`no_lostWakeup_of_enqueue_while_locked`).  The proof follows the ownership of the lock:
a non-zero lock word or a non-empty queue always has an owner or a wake-up in flight
(`TakenInv`), and every queued node has a thread that waits on it (`NodesOk`).
-/

set_option autoImplicit false

namespace OsSimulator.Analysis

open Model Library

variable {T : Type*} [DecidableEq T]

/-! ## Runs -/

/-- One step of a thread that may move in this state. -/
def MutexStep (allowed : MutexSystem T → T → Prop) (s s' : MutexSystem T) : Prop :=
  ∃ t, allowed s t ∧ s.step t = some s'

/-- The states that runs with allowed steps only reach. -/
def MutexReachable (allowed : MutexSystem T → T → Prop) (s : MutexSystem T) : Prop :=
  Relation.ReflTransGen (MutexStep allowed) (newMutexSystem T) s

/-- Every interleaving. -/
def anyStep (_ : MutexSystem T) (_ : T) : Prop := True

/-- A thread enters the queue only while the lock word is non-zero. -/
def enqueueWhileLocked (s : MutexSystem T) (t : T) : Prop :=
  ∀ node, s.pc t = .failed node → s.state ≠ .unlocked

/-- What a step can be. -/
theorem step_cases {s s' : MutexSystem T} {t : T} {P : MutexSystem T → Prop}
    (hstep : s.step t = some s')
    (hcas : s.pc t = .outside → P (s.compareAndSwap t))
    (henqueue : ∀ node, s.pc t = .failed node → P (s.enqueue t node))
    (hreceive : ∀ node, s.pc t = .waiting node → node ∈ s.closed →
      P { s with pc := Function.update s.pc t .holding })
    (hrelease : s.pc t = .holding → P (s.release t))
    (hwake : ∀ node, s.pc t = .waking node → P (s.wake t node)) : P s' := by
  unfold MutexSystem.step at hstep
  cases hpc : s.pc t with
  | outside =>
    simp only [hpc, Option.some.injEq] at hstep
    exact hstep ▸ hcas hpc
  | failed node =>
    simp only [hpc, Option.some.injEq] at hstep
    exact hstep ▸ henqueue node hpc
  | waiting node =>
    simp only [hpc, MutexSystem.receive] at hstep
    split at hstep
    · rename_i hclosed
      exact Option.some.inj hstep ▸ hreceive node hpc hclosed
    · simp at hstep
  | holding =>
    simp only [hpc, Option.some.injEq] at hstep
    exact hstep ▸ hrelease hpc
  | waking node =>
    simp only [hpc, Option.some.injEq] at hstep
    exact hstep ▸ hwake node hpc
  | panicked => simp [hpc] at hstep

/-! ## Threads at a program point -/

/-- Some thread is at `p`. -/
def SomeAt (pc : T → ThreadPc) (p : ThreadPc) : Prop := ∃ t, pc t = p

theorem someAt_update_self (pc : T → ThreadPc) (t : T) (p : ThreadPc) :
    SomeAt (Function.update pc t p) p := ⟨t, Function.update_self t p pc⟩

variable {p : ThreadPc}

/-- A step of `t` leaves the other threads where they are. -/
theorem SomeAt.update {pc : T → ThreadPc} (h : SomeAt pc p) {t : T} (hne : pc t ≠ p)
    (q : ThreadPc) : SomeAt (Function.update pc t q) p := by
  obtain ⟨u, hu⟩ := h
  have hut : u ≠ t := by
    intro heq
    exact hne (heq ▸ hu)
  exact ⟨u, by rw [Function.update_of_ne hut, hu]⟩

/-- The wait node that a thread in `Lock` has allocated. -/
def nodeOf : ThreadPc → Option ℕ
  | .failed node => some node
  | .waiting node => some node
  | _ => none

/-! ## The wait nodes -/

/-- Every node belongs to one thread and is queued, popped or closed, in this order. -/
structure NodesOk (s : MutexSystem T) : Prop where
  owner_lt : ∀ t n, nodeOf (s.pc t) = some n → n < s.nodes
  owner_unique : ∀ t u n, nodeOf (s.pc t) = some n → nodeOf (s.pc u) = some n → t = u
  closed_lt : ∀ n ∈ s.closed, n < s.nodes
  failed_open : ∀ t n, s.pc t = .failed n → n ∉ s.closed
  nodup : s.waiters.Nodup
  queued : ∀ n ∈ s.waiters, n ∉ s.closed ∧ SomeAt s.pc (.waiting n)
  popped : ∀ t n, s.pc t = .waking n → n ∉ s.closed ∧ n ∉ s.waiters ∧ SomeAt s.pc (.waiting n)
  waker_unique : ∀ t u n, s.pc t = .waking n → s.pc u = .waking n → t = u
  waiting : ∀ t n, s.pc t = .waiting n → n ∈ s.waiters ∨ n ∈ s.closed ∨ SomeAt s.pc (.waking n)
  flagged : s.waiters ≠ [] → s.state ≠ .unlocked

section Nodes

variable {s s' : MutexSystem T} {t : T} {n : ℕ}

omit [DecidableEq T] in
theorem nodesOk_new : NodesOk (newMutexSystem T) := by
  constructor <;> simp [newMutexSystem, newMutex, nodeOf]

omit [DecidableEq T] in
theorem NodesOk.waiting_lt (hs : NodesOk s) (hn : SomeAt s.pc (.waiting n)) : n < s.nodes := by
  obtain ⟨u, hu⟩ := hn
  exact hs.owner_lt u n (by rw [hu]; rfl)

omit [DecidableEq T] in
/-- No thread waits on a node that is not queued yet. -/
theorem NodesOk.not_waiting_of_failed (hs : NodesOk s) (ht : s.pc t = .failed n) :
    ¬ SomeAt s.pc (.waiting n) := by
  rintro ⟨u, hu⟩
  have htu := hs.owner_unique t u n (by rw [ht]; rfl) (by rw [hu]; rfl)
  rw [← htu, ht] at hu
  cases hu

/-- A thread moves, with a new node if it has one: every node still has one owner. -/
theorem NodesOk.owner_moves (hs : NodesOk s) (hpc : s'.pc = Function.update s.pc t p)
    (hnodes : s.nodes ≤ s'.nodes) (hfresh : ∀ n, nodeOf p = some n → n = s.nodes ∧ n < s'.nodes) :
    (∀ u n, nodeOf (s'.pc u) = some n → n < s'.nodes) ∧
      ∀ u v n, nodeOf (s'.pc u) = some n → nodeOf (s'.pc v) = some n → u = v := by
  have hself : s'.pc t = p := by rw [hpc, Function.update_self]
  have hothers : ∀ u, u ≠ t → s'.pc u = s.pc u := fun u hu => by rw [hpc, Function.update_of_ne hu]
  have hnew : ∀ u n, u ≠ t → nodeOf (s'.pc u) = some n → nodeOf p ≠ some n := by
    intro u n hut hu hpn
    rw [hothers u hut] at hu
    exact (hs.owner_lt u n hu).ne (hfresh n hpn).1
  constructor
  · intro u n hu
    by_cases hut : u = t
    · rw [hut, hself] at hu
      exact (hfresh n hu).2
    · rw [hothers u hut] at hu
      exact (hs.owner_lt u n hu).trans_le hnodes
  · intro u v n hu hv
    by_cases hut : u = t <;> by_cases hvt : v = t
    · rw [hut, hvt]
    · exact absurd (hself ▸ hut ▸ hu) (hnew v n hvt hv)
    · exact absurd (hself ▸ hvt ▸ hv) (hnew u n hut hu)
    · rw [hothers u hut] at hu
      rw [hothers v hvt] at hv
      exact hs.owner_unique u v n hu hv

/-- A thread that nobody has to wake moves, and neither the queue nor a channel changes.  If it
has a node now, the node is new. -/
theorem NodesOk.moves (hs : NodesOk s) (hpc : s'.pc = Function.update s.pc t p)
    (hwaiters : s'.waiters = s.waiters) (hclosed : s'.closed = s.closed)
    (hnodes : s.nodes ≤ s'.nodes) (hwaiting : ∀ n, s.pc t = .waiting n → n ∈ s.closed)
    (hwaking : ∀ n, s.pc t ≠ .waking n)
    (hfresh : ∀ n, nodeOf p = some n → n = s.nodes ∧ n < s'.nodes)
    (hp : ∀ n, p ≠ .waiting n ∧ p ≠ .waking n) (hflagged : s.waiters ≠ [] → s'.state ≠ .unlocked) :
    NodesOk s' := by
  obtain ⟨hlt, hunique⟩ := hs.owner_moves hpc hnodes hfresh
  have hwaits : ∀ u n, s'.pc u = .waiting n → s.pc u = .waiting n := fun u n hu =>
    (eq_of_update (hpc ▸ hu) (hp n).1).2
  have hwakes : ∀ u n, s'.pc u = .waking n → s.pc u = .waking n := fun u n hu =>
    (eq_of_update (hpc ▸ hu) (hp n).2).2
  -- a thread at an open channel is not `t`
  have hstill : ∀ n, n ∉ s.closed → SomeAt s.pc (.waiting n) → SomeAt s'.pc (.waiting n) := by
    intro n hopen hn
    rw [hpc]
    exact hn.update (fun heq => hopen (hwaiting n heq)) p
  refine ⟨hlt, hunique, ?_, ?_, ?_, ?_, ?_, ?_, ?_, ?_⟩
  · rw [hclosed]
    exact fun n hn => (hs.closed_lt n hn).trans_le hnodes
  · rw [hclosed, hpc]
    intro u n hu hn
    by_cases hut : u = t
    · rw [hut, Function.update_self] at hu
      exact (hs.closed_lt n hn).ne (hfresh n (by rw [hu]; rfl)).1
    · rw [Function.update_of_ne hut] at hu
      exact hs.failed_open u n hu hn
  · rw [hwaiters]
    exact hs.nodup
  · rw [hwaiters, hclosed]
    intro n hn
    obtain ⟨hopen, hat⟩ := hs.queued n hn
    exact ⟨hopen, hstill n hopen hat⟩
  · rw [hwaiters, hclosed]
    intro u n hu
    obtain ⟨hopen, hout, hat⟩ := hs.popped u n (hwakes u n hu)
    exact ⟨hopen, hout, hstill n hopen hat⟩
  · exact fun u v n hu hv => hs.waker_unique u v n (hwakes u n hu) (hwakes v n hv)
  · rw [hwaiters, hclosed, hpc]
    intro u n hu
    rcases hs.waiting u n (hwaits u n (hpc ▸ hu)) with hq | hc | hw
    · exact .inl hq
    · exact .inr (.inl hc)
    · exact .inr (.inr (hw.update (hwaking n) p))
  · rw [hwaiters]
    exact hflagged

theorem NodesOk.compareAndSwap (hs : NodesOk s) (hpc : s.pc t = .outside) :
    NodesOk (s.compareAndSwap t) := by
  unfold MutexSystem.compareAndSwap
  split
  · exact hs.moves rfl rfl rfl le_rfl (by simp [hpc]) (by simp [hpc]) (by simp [nodeOf]) (by simp)
      (by simp)
  · exact hs.moves rfl rfl rfl (Nat.le_succ _) (by simp [hpc]) (by simp [hpc]) (by simp [nodeOf])
      (by simp) hs.flagged

theorem NodesOk.enqueue (hs : NodesOk s) (hpc : s.pc t = .failed n) : NodesOk (s.enqueue t n) := by
  -- the thread keeps its node, which nobody waits on and which is not closed
  have hfresh := hs.not_waiting_of_failed hpc
  have hopen := hs.failed_open t n hpc
  have hself := someAt_update_self s.pc t (.waiting n)
  unfold MutexSystem.enqueue
  constructor
  case owner_lt | owner_unique =>
    have hlt := hs.owner_lt
    have hunique := hs.owner_unique
    grind [Function.update_apply, nodeOf]
  case closed_lt => exact hs.closed_lt
  case failed_open =>
    have hfailed := hs.failed_open
    grind [Function.update_apply]
  case nodup | queued =>
    have hnodup := hs.nodup
    have hqueued := hs.queued
    grind [SomeAt.update]
  case popped | waker_unique =>
    have hpopped := hs.popped
    have hwakers := hs.waker_unique
    grind [Function.update_apply, SomeAt.update]
  case waiting =>
    have hwaiting := hs.waiting
    grind [Function.update_apply, SomeAt.update]
  case flagged => simp

theorem NodesOk.receive (hs : NodesOk s) (hpc : s.pc t = .waiting n) (hn : n ∈ s.closed) :
    NodesOk { s with pc := Function.update s.pc t .holding } :=
  hs.moves rfl rfl rfl le_rfl (by simp [hpc, hn]) (by simp [hpc]) (by simp [nodeOf]) (by simp)
    hs.flagged

theorem NodesOk.release (hs : NodesOk s) (hpc : s.pc t = .holding) : NodesOk (s.release t) := by
  unfold MutexSystem.release
  split
  · -- the first node leaves the queue, and the thread is about to close it
    rename_i node rest hwaiters
    have hfirst := hs.queued node (by simp [hwaiters])
    have hnodup := hs.nodup
    have hqueued := hs.queued
    rw [hwaiters] at hnodup hqueued
    constructor
    case owner_lt | owner_unique =>
      have hlt := hs.owner_lt
      have hunique := hs.owner_unique
      grind [Function.update_apply, nodeOf]
    case closed_lt => exact hs.closed_lt
    case failed_open =>
      have hfailed := hs.failed_open
      grind [Function.update_apply]
    case nodup => exact hnodup.of_cons
    case queued => grind [SomeAt.update]
    case popped | waker_unique =>
      have hpopped := hs.popped
      have hwakers := hs.waker_unique
      grind [Function.update_apply, SomeAt.update]
    case waiting =>
      have hwaiting := hs.waiting
      grind [Function.update_apply, SomeAt.update, someAt_update_self]
    case flagged =>
      have hflagged := hs.flagged
      grind
  · rename_i hnil
    exact hs.moves rfl rfl rfl le_rfl (by simp [hpc]) (by simp [hpc]) (by simp [nodeOf]) (by simp)
      fun h => absurd hnil h

/-- The popped node is open, so that closing it does not panic. -/
theorem NodesOk.wake_eq (hs : NodesOk s) (hpc : s.pc t = .waking n) :
    s.wake t n =
      { s with closed := insert n s.closed, pc := Function.update s.pc t .outside } := by
  unfold MutexSystem.wake
  rw [if_neg (hs.popped t n hpc).1]

theorem NodesOk.wake (hs : NodesOk s) (hpc : s.pc t = .waking n) : NodesOk (s.wake t n) := by
  rw [hs.wake_eq hpc]
  obtain ⟨-, hout, hwaits⟩ := hs.popped t n hpc
  have hnotFailed : ∀ u, s.pc u ≠ .failed n := fun u hu => hs.not_waiting_of_failed hu hwaits
  constructor
  case owner_lt | owner_unique =>
    have hlt := hs.owner_lt
    have hunique := hs.owner_unique
    grind [Function.update_apply, nodeOf]
  case closed_lt =>
    have hlt := hs.waiting_lt hwaits
    have hclosed := hs.closed_lt
    grind
  case failed_open =>
    have hfailed := hs.failed_open
    grind [Function.update_apply]
  case nodup => exact hs.nodup
  case queued =>
    have hqueued := hs.queued
    grind [SomeAt.update]
  case popped | waker_unique =>
    have hpopped := hs.popped
    have hwakers := hs.waker_unique
    grind [Function.update_apply, SomeAt.update]
  case waiting =>
    have hwaiting := hs.waiting
    grind [Function.update_apply, SomeAt.update]
  case flagged => exact hs.flagged

theorem NodesOk.step (hs : NodesOk s) (hstep : s.step t = some s') : NodesOk s' := by
  apply step_cases hstep
  · exact fun hpc => hs.compareAndSwap hpc
  · exact fun node hpc => hs.enqueue hpc
  · exact fun node hpc hclosed => hs.receive hpc hclosed
  · exact fun hpc => hs.release hpc
  · exact fun node hpc => hs.wake hpc

theorem nodesOk_of_reachable {allowed : MutexSystem T → T → Prop}
    (hs : MutexReachable allowed s) : NodesOk s := by
  induction hs with
  | refl => exact nodesOk_new
  | tail _ hstep ih =>
    obtain ⟨t, -, hstep⟩ := hstep
    exact ih.step hstep

end Nodes

/-! ## Ownership -/

/-- The thread has the lock: it has returned from `Lock`, or the lock was handed to it by
closing its channel and its receive no longer blocks. -/
def Holds (s : MutexSystem T) (t : T) : Prop :=
  s.pc t = .holding ∨ ∃ n ∈ s.closed, s.pc t = .waiting n

/-- A node is popped and its channel not closed yet. -/
def WakeupInFlight (s : MutexSystem T) : Prop := ∃ n, SomeAt s.pc (.waking n)

/-- The thread blocks on the channel of its node. -/
def Parked (s : MutexSystem T) (t : T) : Prop := ∃ n ∉ s.closed, s.pc t = .waiting n

/-- A thread is parked, and nobody is there to wake it: no holder, no wake-up in flight,
and no thread on its way into the queue. -/
structure LostWakeup (s : MutexSystem T) : Prop where
  parked : ∃ t, Parked s t
  no_holder : ∀ t, ¬ Holds s t
  no_wakeup : ¬ WakeupInFlight s
  no_failed : ∀ n, ¬ SomeAt s.pc (.failed n)

/-- Somebody holds the lock or is handing it on. -/
def Taken (s : MutexSystem T) : Prop := (∃ t, Holds s t) ∨ WakeupInFlight s

section Ownership

variable {s s' : MutexSystem T} {t : T} {n : ℕ}

/-- The owner stays when another thread moves and no channel is opened. -/
theorem Taken.update (hs : Taken s) (hpc : s'.pc = Function.update s.pc t p)
    (hclosed : s.closed ⊆ s'.closed) (hother : ¬ Holds s t ∧ ∀ n, s.pc t ≠ .waking n) :
    Taken s' := by
  rcases hs with ⟨u, hu⟩ | ⟨n, hn⟩
  · have hut : u ≠ t := fun heq => hother.1 (heq ▸ hu)
    have hpcu : s'.pc u = s.pc u := by rw [hpc, Function.update_of_ne hut]
    refine .inl ⟨u, ?_⟩
    unfold Holds
    rw [hpcu]
    exact hu.imp id fun ⟨m, hm, hw⟩ => ⟨m, hclosed hm, hw⟩
  · refine .inr ⟨n, ?_⟩
    rw [hpc]
    exact hn.update (hother.2 n) p

theorem taken_of_holding (hpc : s'.pc = Function.update s.pc t .holding) : Taken s' :=
  .inl ⟨t, .inl (by rw [hpc, Function.update_self])⟩

/-- A lock word or a queue that promises an owner has one. -/
def TakenInv (s : MutexSystem T) : Prop := s.state ≠ .unlocked ∨ s.waiters ≠ [] → Taken s

/-- **One step keeps the owner**, as long as nobody enters the queue of a free lock. -/
theorem TakenInv.step (hs : TakenInv s) (hnodes : NodesOk s) (hstep : s.step t = some s')
    (hallowed : enqueueWhileLocked s t) : TakenInv s' := by
  have houtside : ∀ p, s.pc t = p → p ≠ .holding → (∀ n, p ≠ .waiting n) → (∀ n, p ≠ .waking n) →
      ¬ Holds s t ∧ ∀ n, s.pc t ≠ .waking n := by
    rintro p rfl hh hw hk
    exact ⟨fun hold => hold.elim hh fun ⟨n, _, hn⟩ => hw n hn, hk⟩
  apply step_cases hstep
  · intro hpc _
    unfold MutexSystem.compareAndSwap at *
    by_cases hfree : s.state = .unlocked
    · rw [if_pos hfree]
      exact taken_of_holding rfl
    · rw [if_neg hfree]
      exact (hs (.inl hfree)).update rfl (fun _ h => h)
        (houtside _ hpc (by simp) (by simp) (by simp))
  · -- the lock word is non-zero before the enqueue, so there was an owner already
    intro node hpc _
    exact (hs (.inl (hallowed node hpc))).update rfl (fun _ h => h)
      (houtside _ hpc (by simp) (by simp) (by simp))
  · intro node hpc _ _
    exact taken_of_holding rfl
  · intro hpc hword
    unfold MutexSystem.release at *
    cases hq : s.waiters with
    | nil => simp [hq] at hword
    | cons next rest => exact .inr ⟨next, someAt_update_self _ _ _⟩
  · -- the lock passes to the thread that waits on the closed node
    intro node hpc _
    rw [hnodes.wake_eq hpc]
    obtain ⟨u, hu⟩ := (hnodes.popped t node hpc).2.2
    have hut : u ≠ t := by
      rintro rfl
      rw [hpc] at hu
      cases hu
    refine .inl ⟨u, .inr ⟨node, Finset.mem_insert_self _ _, ?_⟩⟩
    show Function.update s.pc t .outside u = .waiting node
    rw [Function.update_of_ne hut, hu]

theorem takenInv_of_reachable (hs : MutexReachable enqueueWhileLocked s) : TakenInv s := by
  induction hs with
  | refl => simp [TakenInv, newMutexSystem, newMutex]
  | tail hreach hstep ih =>
    obtain ⟨t, hallowed, hstep⟩ := hstep
    exact ih.step (nodesOk_of_reachable hreach) hstep hallowed

/-- **No wake-up is lost** in a run whose threads enter the queue only while the lock word
is non-zero. -/
theorem no_lostWakeup_of_enqueue_while_locked (hs : MutexReachable enqueueWhileLocked s) :
    ¬ LostWakeup s := by
  intro hlost
  obtain ⟨t, n, hopen, hwait⟩ := hlost.parked
  have htaken : ¬ Taken s := by
    rintro (⟨u, hu⟩ | hflight)
    · exact hlost.no_holder u hu
    · exact hlost.no_wakeup hflight
  rcases (nodesOk_of_reachable hs).waiting t n hwait with hq | hc | hw
  · exact htaken (takenInv_of_reachable hs (.inr (List.ne_nil_of_mem hq)))
  · exact hopen hc
  · exact hlost.no_wakeup ⟨n, hw⟩

/-! ## A lost wake-up is never made up for -/

/-- The lock word is non-zero and nobody will reset it. -/
def Stranded (s : MutexSystem T) : Prop := s.state ≠ .unlocked ∧ ¬ Taken s

omit [DecidableEq T] in
theorem LostWakeup.stranded (hlost : LostWakeup s) (hnodes : NodesOk s) : Stranded s := by
  obtain ⟨t, n, hopen, hwait⟩ := hlost.parked
  refine ⟨?_, ?_⟩
  · rcases hnodes.waiting t n hwait with hq | hc | hw
    · exact hnodes.flagged (List.ne_nil_of_mem hq)
    · exact absurd hc hopen
    · exact absurd ⟨n, hw⟩ hlost.no_wakeup
  · rintro (⟨u, hu⟩ | hflight)
    · exact hlost.no_holder u hu
    · exact hlost.no_wakeup hflight

/-- Nobody becomes the owner by moving to a place where a thread owns nothing. -/
theorem not_taken_update (hs : ¬ Taken s) (hpc : s'.pc = Function.update s.pc t p)
    (hclosed : s'.closed = s.closed) (hp : p ≠ .holding) (hw : ∀ n ∈ s.closed, p ≠ .waiting n)
    (hk : ∀ n, p ≠ .waking n) : ¬ Taken s' := by
  have hold : ∀ u ≠ t, s'.pc u = s.pc u := fun u hu => by rw [hpc, Function.update_of_ne hu]
  have hself : s'.pc t = p := by rw [hpc, Function.update_self]
  rintro (⟨u, hu⟩ | ⟨n, u, hu⟩)
  · by_cases hut : u = t
    · rw [Holds, hut, hself, hclosed] at hu
      rcases hu with hu | ⟨n, hn, hu⟩
      · exact hp hu
      · exact hw n hn hu
    · rw [Holds, hold u hut, hclosed] at hu
      exact hs (.inl ⟨u, hu⟩)
  · by_cases hut : u = t
    · rw [hut, hself] at hu
      exact hk n hu
    · rw [hold u hut] at hu
      exact hs (.inr ⟨n, u, hu⟩)

theorem Stranded.step (hs : Stranded s) (hnodes : NodesOk s) (hstep : s.step t = some s') :
    Stranded s' := by
  obtain ⟨hword, htaken⟩ := hs
  apply step_cases hstep
  · intro hpc
    unfold MutexSystem.compareAndSwap
    rw [if_neg hword]
    exact ⟨hword, not_taken_update htaken rfl rfl (by simp) (by simp) (by simp)⟩
  · intro node hpc
    refine ⟨by simp [MutexSystem.enqueue], not_taken_update htaken rfl rfl (by simp) ?_ (by simp)⟩
    rintro n hn heq
    cases heq
    exact hnodes.failed_open t node hpc hn
  · intro node hpc hclosed
    exact absurd (.inl ⟨t, .inr ⟨node, hclosed, hpc⟩⟩) htaken
  · intro hpc
    exact absurd (.inl ⟨t, .inl hpc⟩) htaken
  · intro node hpc
    exact absurd (.inr ⟨node, t, hpc⟩) htaken

/-- After a lost wake-up no thread ever has the lock again, whatever the interleaving. -/
theorem no_holder_after_lostWakeup (hs : MutexReachable anyStep s) (hlost : LostWakeup s)
    (hrun : Relation.ReflTransGen (MutexStep anyStep) s s') (t : T) : ¬ Holds s' t := by
  have hstranded : NodesOk s' ∧ Stranded s' := by
    induction hrun with
    | refl => exact ⟨nodesOk_of_reachable hs, hlost.stranded (nodesOk_of_reachable hs)⟩
    | tail _ hstep ih =>
      obtain ⟨u, -, hstep⟩ := hstep
      exact ⟨ih.1.step hstep, ih.2.step ih.1 hstep⟩
  intro hold
  exact hstranded.2.2 (.inl ⟨t, hold⟩)

theorem reachable_of_run (schedule : List T) (hs : MutexReachable anyStep s)
    (hrun : s.run schedule = some s') : MutexReachable anyStep s' := by
  induction schedule generalizing s with
  | nil =>
    obtain rfl : s = s' := Option.some.inj hrun
    exact hs
  | cons t schedule ih =>
    unfold MutexSystem.run at hrun
    rw [List.foldlM_cons] at hrun
    obtain ⟨s₁, hstep, hrest⟩ := Option.bind_eq_some_iff.mp hrun
    exact ih (hs.tail ⟨t, trivial, hstep⟩) hrest

end Ownership

/-- Thread `0` locks, the CAS of thread `1` fails, thread `0` unlocks, and thread `1` queues
itself: it is parked on a lock that nobody holds. -/
theorem lostWakeup_two_threads : ∃ s : MutexSystem (Fin 2),
    (newMutexSystem (Fin 2)).run [0, 1, 0, 1] = some s ∧ MutexReachable anyStep s ∧
      LostWakeup s := by
  refine ⟨_, rfl, reachable_of_run [0, 1, 0, 1] .refl rfl, ?_⟩
  have hpc : ∀ t : Fin 2, Function.update (Function.update (Function.update (Function.update
      (fun _ => ThreadPc.outside) 0 .holding) 1 (.failed 0)) 0 .outside) 1 (.waiting 0) t =
        if t = 0 then .outside else .waiting 0 := by decide
  constructor
  · exact ⟨1, 0, Finset.notMem_empty 0, hpc 1⟩
  · rintro t (ht | ⟨n, hn, -⟩)
    · have h := (hpc t).symm.trans ht
      split at h <;> cases h
    · exact Finset.notMem_empty n hn
  · rintro ⟨n, t, ht⟩
    have h := (hpc t).symm.trans ht
    split at h <;> cases h
  · rintro n ⟨t, ht⟩
    have h := (hpc t).symm.trans ht
    split at h <;> cases h

/-- Thread `1` queues itself while thread `0` holds the lock, and is not lost. -/
theorem no_lostWakeup_two_threads : ∃ s : MutexSystem (Fin 2),
    MutexReachable enqueueWhileLocked s ∧ Parked s 1 ∧ ¬ LostWakeup s := by
  have h₀ : MutexReachable enqueueWhileLocked (newMutexSystem (Fin 2)) := .refl
  have h₁ := h₀.tail ⟨0, (fun _ h => by cases h), rfl⟩
  have h₂ := h₁.tail ⟨1, (fun _ h => by cases h), rfl⟩
  have h₃ := h₂.tail ⟨1, (fun _ _ => by decide), rfl⟩
  exact ⟨_, h₃, ⟨0, Finset.notMem_empty 0, rfl⟩, no_lostWakeup_of_enqueue_while_locked h₃⟩

end OsSimulator.Analysis
