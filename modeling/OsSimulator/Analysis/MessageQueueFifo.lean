import OsSimulator.Model.MessageQueue
import OsSimulator.Library.Mailbox

/-!
# The message queue is lossless, and first in first out for each type

The queue is compared with a mailbox that forgets nothing (`OsSimulator.Library.Mailbox`): it keeps
all messages that were accepted, and the numbers of those that were received.  A `Receive` of the
mailbox takes the first message of the type that is left.  The queue holds at every point what is
left in the mailbox, in the order of sending, and hands out what the mailbox takes.
-/

set_option autoImplicit false

namespace OsSimulator.Analysis

open Model Library

/-! ## The specification -/

def sentMessages (events : List MessageEvent) : List IPCMessage :=
  events.filterMap fun
    | .sent msg => some msg
    | _ => none

def receivedMessages (events : List MessageEvent) : List IPCMessage :=
  events.filterMap fun
    | .received msg => some msg
    | _ => none

/-- What a call does to the mailbox. -/
def mailboxStep (capacity : ℕ) (b : Mailbox IPCMessage) (call : MessageCall) : Mailbox IPCMessage :=
  match call with
  | .send msg => if b.waiting.length < capacity then b.put msg else b
  | .receive targetType => ((b.earliest (MessageQueue.matchesType targetType)).map b.take).getD b

def mailboxAfter (capacity : ℕ) (calls : List MessageCall) : Mailbox IPCMessage :=
  calls.foldl (mailboxStep capacity) .empty

/-- The queue and what has happened to it, against the mailbox. -/
structure QueueLaw (b : Mailbox IPCMessage) (mq : MessageQueue) (events : List MessageEvent) :
    Prop where
  sent_eq : sentMessages events = b.sent
  received_eq : receivedMessages events = b.received
  /-- each message that was sent has been received once or is left once -/
  once : (b.taken ++ b.waiting).Perm (List.range b.sent.length)
  /-- the queue is what is left, in the order of sending -/
  queue : b.Holds mq.messages
  receive_ok : ∀ targetType msg, (mq.receive targetType).1 = .ok msg ↔
    ∃ i, IsLeast (b.unreceived (MessageQueue.matchesType targetType)) i ∧ b.sent[i]? = some msg
  receive_empty : ∀ targetType, mq.receive targetType = (.error errQueueEmpty, mq) ↔
    b.unreceived (MessageQueue.matchesType targetType) = ∅
  send_ok : ∀ msg, mq.messages.length ≠ mq.capacity →
    mq.send msg = (none, { mq with messages := mq.messages ++ [msg] })
  send_full : ∀ msg, mq.send msg = (some errQueueFull, mq) ↔ mq.messages.length = mq.capacity

/-! ## The calls -/

variable {mq : MessageQueue} {b : Mailbox IPCMessage} {events : List MessageEvent}

/-- The loop of `Receive` finds the first message of the type. -/
theorem receiveLoop_spec (targetType : Int64) (rest : List IPCMessage) :
    ∀ done, mq.messages = done ++ rest →
      (∀ x ∈ done, MessageQueue.matchesType targetType x = false) →
      ((∀ x ∈ mq.messages, MessageQueue.matchesType targetType x = false) ∧
        mq.receiveLoop targetType done.length rest = (.error errQueueEmpty, mq)) ∨
      ∃ pre msg post, mq.messages = pre ++ msg :: post ∧
        (∀ x ∈ pre, MessageQueue.matchesType targetType x = false) ∧
        MessageQueue.matchesType targetType msg = true ∧
        mq.receiveLoop targetType done.length rest =
          (.ok msg, { mq with messages := pre ++ post }) := by
  induction rest with
  | nil =>
    intro done hmessages hdone
    rw [List.append_nil] at hmessages
    exact .inl ⟨hmessages ▸ hdone, rfl⟩
  | cons msg rest ih =>
    intro done hmessages hdone
    unfold MessageQueue.receiveLoop
    cases hmatch : MessageQueue.matchesType targetType msg with
    | true =>
      refine .inr ⟨done, msg, rest, hmessages, hdone, hmatch, ?_⟩
      have htake : mq.messages.take done.length = done := by
        rw [hmessages, List.take_left]
      have hdrop : mq.messages.drop (done.length + 1) = rest := by
        rw [hmessages, List.drop_append]
        simp
      rw [if_pos rfl, htake, hdrop]
    | false =>
      have hnext := ih (done ++ [msg]) (by rw [hmessages, List.append_assoc]; rfl) fun x hx => by
        rcases List.mem_append.mp hx with hx | hx
        · exact hdone x hx
        · rw [List.mem_singleton.mp hx, hmatch]
      rw [List.length_append, List.length_singleton] at hnext
      rw [if_neg Bool.false_ne_true]
      exact hnext

theorem receive_spec (mq : MessageQueue) (targetType : Int64) :
    ((∀ x ∈ mq.messages, MessageQueue.matchesType targetType x = false) ∧
        mq.receive targetType = (.error errQueueEmpty, mq)) ∨
      ∃ pre msg post, mq.messages = pre ++ msg :: post ∧
        (∀ x ∈ pre, MessageQueue.matchesType targetType x = false) ∧
        MessageQueue.matchesType targetType msg = true ∧
        mq.receive targetType = (.ok msg, { mq with messages := pre ++ post }) :=
  receiveLoop_spec targetType mq.messages [] rfl fun _ hx => absurd hx List.not_mem_nil

/-! ## The invariant -/

structure QueueInv (capacity : ℕ) (b : Mailbox IPCMessage) (mq : MessageQueue)
    (events : List MessageEvent) : Prop where
  capacity_eq : mq.capacity = capacity
  bound : mq.messages.length ≤ capacity
  sent_eq : sentMessages events = b.sent
  received_eq : receivedMessages events = b.received
  queue : b.Holds mq.messages

variable {capacity : ℕ}

theorem queueInv_init (qid capacity : Int64) :
    QueueInv (newMessageQueue qid capacity).capacity .empty (newMessageQueue qid capacity) [] where
  capacity_eq := rfl
  bound := Nat.zero_le _
  sent_eq := rfl
  received_eq := rfl
  queue := Mailbox.holds_empty

theorem QueueInv.send (h : QueueInv capacity b mq events) (msg : IPCMessage) :
    QueueInv capacity (mailboxStep capacity b (.send msg)) (mq.step (.send msg)).1
      (events ++ (mq.step (.send msg)).2) := by
  have hlength := h.queue.length_eq
  simp only [mailboxStep, MessageQueue.step, MessageQueue.send, h.capacity_eq]
  by_cases hfull : mq.messages.length ≥ capacity
  · rw [if_pos hfull, if_neg (by omega)]
    refine ⟨h.capacity_eq, h.bound, ?_, ?_, h.queue⟩
    · simpa [sentMessages] using h.sent_eq
    · simpa [receivedMessages] using h.received_eq
  · rw [if_neg hfull, if_pos (by omega)]
    refine ⟨rfl, ?_, ?_, ?_, h.queue.put msg⟩
    · rw [List.length_append, List.length_singleton]
      omega
    · have := h.sent_eq
      simp only [sentMessages, List.filterMap_append] at this ⊢
      rw [this]
      rfl
    · rw [Mailbox.received_put, ← h.received_eq]
      simp [receivedMessages]

theorem QueueInv.receive (h : QueueInv capacity b mq events) (targetType : Int64) :
    QueueInv capacity (mailboxStep capacity b (.receive targetType))
      (mq.step (.receive targetType)).1 (events ++ (mq.step (.receive targetType)).2) := by
  simp only [mailboxStep, MessageQueue.step]
  obtain ⟨hnone, heq⟩ | ⟨pre, msg, post, hsplit, hpre, hmsg, heq⟩ := receive_spec mq targetType
  · rw [heq, (h.queue.none hnone).2]
    refine ⟨h.capacity_eq, h.bound, ?_, ?_, h.queue⟩
    · simpa [sentMessages] using h.sent_eq
    · simpa [receivedMessages] using h.received_eq
  · obtain ⟨i, hi, -, hearliest, hget, hholds⟩ := (hsplit ▸ h.queue).take hpre hmsg
    have hbound := h.bound
    rw [hsplit, List.length_append, List.length_cons] at hbound
    rw [heq, hearliest]
    refine ⟨h.capacity_eq, ?_, ?_, ?_, hholds⟩
    · simp only [List.length_append]
      omega
    · have := h.sent_eq
      simp only [sentMessages, List.filterMap_append] at this ⊢
      rw [this]
      simp [Mailbox.take_sent]
    · have := h.received_eq
      simp only [receivedMessages, List.filterMap_append] at this ⊢
      rw [this, Option.map_some, Option.getD_some, Mailbox.received_take hi hget]
      rfl

/-- Where a message of the type is left, the first one is received. -/
theorem QueueInv.receive_ok_iff (h : QueueInv capacity b mq events) (targetType : Int64)
    (msg : IPCMessage) :
    (mq.receive targetType).1 = .ok msg ↔
      ∃ i, IsLeast (b.unreceived (MessageQueue.matchesType targetType)) i ∧
        b.sent[i]? = some msg := by
  obtain ⟨hnone, heq⟩ | ⟨pre, m, post, hsplit, hpre, hm, heq⟩ := receive_spec mq targetType
  · rw [heq, (h.queue.none hnone).1]
    refine iff_of_false (by simp) ?_
    rintro ⟨i, hi, -⟩
    exact hi.1
  · obtain ⟨i, -, hleast, -, hget, -⟩ := (hsplit ▸ h.queue).take hpre hm
    rw [heq]
    constructor
    · rintro ⟨⟩
      exact ⟨i, hleast, hget⟩
    · rintro ⟨j, hj, hjget⟩
      rw [hleast.unique hj, hjget] at hget
      rw [Option.some.inj hget]

/-- `Receive` fails, without a change, exactly where none is left. -/
theorem QueueInv.receive_empty_iff (h : QueueInv capacity b mq events) (targetType : Int64) :
    mq.receive targetType = (.error errQueueEmpty, mq) ↔
      b.unreceived (MessageQueue.matchesType targetType) = ∅ := by
  obtain ⟨hnone, heq⟩ | ⟨pre, m, post, hsplit, hpre, hm, heq⟩ := receive_spec mq targetType
  · exact iff_of_true heq (h.queue.none hnone).1
  · obtain ⟨i, -, hleast, -⟩ := (hsplit ▸ h.queue).take hpre hm
    refine iff_of_false (by simp [heq]) fun hempty => ?_
    rw [hempty] at hleast
    exact hleast.1

theorem QueueInv.law (h : QueueInv capacity b mq events) : QueueLaw b mq events where
  sent_eq := h.sent_eq
  received_eq := h.received_eq
  once := b.taken_append_waiting
  queue := h.queue
  receive_ok := h.receive_ok_iff
  receive_empty := h.receive_empty_iff
  send_ok := fun msg hroom => by
    have hbound := h.bound
    have hcapacity := h.capacity_eq
    unfold MessageQueue.send
    rw [if_neg (by omega)]
  send_full := fun msg => by
    have hbound := h.bound
    have hcapacity := h.capacity_eq
    unfold MessageQueue.send
    by_cases hfull : mq.messages.length ≥ mq.capacity
    · rw [if_pos hfull]
      exact iff_of_true rfl (by omega)
    · rw [if_neg hfull]
      exact iff_of_false (by simp) (by omega)

theorem queueInv_run (qid capacity : Int64) (calls : List MessageCall) :
    QueueInv (newMessageQueue qid capacity).capacity
      (mailboxAfter (newMessageQueue qid capacity).capacity calls)
      (runMessageQueue qid capacity calls).1 (runMessageQueue qid capacity calls).2 := by
  induction calls using List.reverseRecOn with
  | nil => exact queueInv_init qid capacity
  | append_singleton calls call ih =>
    unfold mailboxAfter runMessageQueue at ih ⊢
    rw [List.foldl_concat, eventRun_concat]
    cases call with
    | send msg => exact ih.send msg
    | receive targetType => exact ih.receive targetType

/-- **The message queue is lossless, and first in first out for each type**, for every capacity and
every sequence of calls.
SOURCE: pkg/ipc/message_queue.go:31-68 -/
theorem messageQueue_fifo (qid capacity : Int64) (calls : List MessageCall) :
    QueueLaw (mailboxAfter (newMessageQueue qid capacity).capacity calls)
      (runMessageQueue qid capacity calls).1 (runMessageQueue qid capacity calls).2 :=
  (queueInv_run qid capacity calls).law

/-- Three messages of two types, of which the second is received first. -/
example :
    (runMessageQueue 1 10 [.send ⟨1, 7, "a"⟩, .send ⟨2, 7, "b"⟩, .send ⟨1, 8, "c"⟩, .receive 2,
      .receive 0, .receive 2]).2.drop 3 =
      [.received ⟨2, 7, "b"⟩, .received ⟨1, 7, "a"⟩, .failed errQueueEmpty] := by decide

end OsSimulator.Analysis
