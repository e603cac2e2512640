import OsSimulator.Library.EventRun
import Mathlib.Data.Nat.Notation

/-!
# The message queue (`pkg/ipc/message_queue.go`)

A queue of typed messages.  Every operation holds the lock of the queue from beginning to end, so a
run is a sequence of calls.

* `newMessageQueue`: pkg/ipc/message_queue.go:31-40
* `send`, `receive`: pkg/ipc/message_queue.go:43-68
-/

set_option autoImplicit false

namespace OsSimulator.Model

open Library

def errQueueFull : String := "message queue full"

def errQueueEmpty : String := "no message of requested type"

structure IPCMessage where
  msgType : Int64
  senderPID : Int64
  payload : String
deriving DecidableEq, Repr

structure MessageQueue where
  queueID : Int64
  capacity : ℕ
  messages : List IPCMessage := []
deriving DecidableEq, Repr

/-- SOURCE: pkg/ipc/message_queue.go:31-40 -/
def newMessageQueue (qid capacity : Int64) : MessageQueue where
  queueID := qid
  capacity := if capacity ≤ 0 then 10 else capacity.toInt.toNat

namespace MessageQueue

/-- The error, if any, and the queue after the call.
SOURCE: pkg/ipc/message_queue.go:43-53 -/
def send (msg : IPCMessage) (mq : MessageQueue) : Option String × MessageQueue :=
  if mq.messages.length ≥ mq.capacity then (some errQueueFull, mq)
  else (none, { mq with messages := mq.messages ++ [msg] })

/-- `targetType == 0 || msg.MsgType == targetType` -/
def matchesType (targetType : Int64) (msg : IPCMessage) : Bool :=
  targetType = 0 ∨ msg.msgType = targetType

/-- The loop of `Receive`, at index `i` with `rest` to come.
SOURCE: pkg/ipc/message_queue.go:60-65 -/
def receiveLoop (targetType : Int64) (mq : MessageQueue) :
    ℕ → List IPCMessage → Except String IPCMessage × MessageQueue
  | _, [] => (.error errQueueEmpty, mq)
  | i, msg :: rest =>
    if matchesType targetType msg then
      (.ok msg, { mq with messages := mq.messages.take i ++ mq.messages.drop (i + 1) })
    else receiveLoop targetType mq (i + 1) rest

/-- SOURCE: pkg/ipc/message_queue.go:56-68 -/
def receive (targetType : Int64) (mq : MessageQueue) : Except String IPCMessage × MessageQueue :=
  receiveLoop targetType mq 0 mq.messages

end MessageQueue

inductive MessageCall where
  | send (msg : IPCMessage)
  | receive (targetType : Int64)
deriving DecidableEq, Repr

/-- What a call did: a message was accepted or handed out, or the call failed. -/
inductive MessageEvent where
  | sent (msg : IPCMessage)
  | received (msg : IPCMessage)
  | failed (err : String)
deriving DecidableEq, Repr

def MessageQueue.step (call : MessageCall) (mq : MessageQueue) :
    MessageQueue × List MessageEvent :=
  match call with
  | .send msg =>
    match mq.send msg with
    | (none, mq') => (mq', [.sent msg])
    | (some err, mq') => (mq', [.failed err])
  | .receive targetType =>
    match mq.receive targetType with
    | (.ok msg, mq') => (mq', [.received msg])
    | (.error err, mq') => (mq', [.failed err])

/-- A new queue after the given calls, and what they did. -/
def runMessageQueue (qid capacity : Int64) (calls : List MessageCall) :
    MessageQueue × List MessageEvent :=
  eventRun MessageQueue.step (newMessageQueue qid capacity) calls

end OsSimulator.Model
