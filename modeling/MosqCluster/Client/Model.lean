import MosqCluster.Foundation.TransitionSystem
import MosqCluster.Helper.XString

/-!
# The MQTT client

`MosqClient` of `mosquitto_cluster_plugin/mosq_client.cpp`: the thread that runs `SubscribeLoop`,
the thread that runs `PublishLoop`, the thread that calls `Stop`, and any number of threads that
call `Publish`, `Subscribe` and `Unsubscribe`, interleaved at every access to `state_` and to the
queue. A label names the next step of one of them together with the result of the call into
libmosquitto or pthread that the step contains, so every result code is possible at every moment;
in particular the connection may be lost and regained between any two steps.

The client starts where `Start` leaves it, with both threads before their first test. The length of
the sleeps (`mosqdelay`) is not modelled: a sleeping thread wakes at any time.

## Main definitions

* `MosqCommand` and `Request.command`: the queued commands and the calls that make them;
* `Client` and `Client.next`: the shared fields, the program counters and one step;
* `client`: the transition system.

## Main results

* `Client.next_cases`: a step is a step of one of the threads.
-/

namespace MosqCluster

/-- `RunningState`. -/
inductive RunningState
  | stopped
  | running
  | stopping
  | reconnecting
  deriving DecidableEq, Repr

/-- `MOSQ_ERR_SUCCESS`. -/
abbrev MOSQ_ERR_SUCCESS : Int32 := 0

/-! ## Commands -/

/-- `MosqCommandPublish`, `MosqCommandSubscribe` and `MosqCommandUnsubscribe`, without the library
handle `mosq_`. -/
inductive MosqCommand
  | publish (commandId : Int32) (topic payload : Bytes) (qos : Int32) (retain : Bool)
  | subscribe (commandId : Int32) (topic : Bytes) (qos : Int32)
  | unsubscribe (commandId : Int32) (topic : Bytes)
  deriving DecidableEq, Repr

/-- The arguments of `Publish`, `Subscribe` and `Unsubscribe`. -/
inductive Request
  | publish (topic payload : Bytes) (payloadlen qos : Int32) (retain : Bool)
  | subscribe (topic : Bytes) (qos : Int32)
  | unsubscribe (topic : Bytes)
  deriving DecidableEq, Repr

/-- The command that a call allocates. `none` is the undefined behaviour of copying the payload. -/
def Request.command (commandId : Int32) : Request → Option MosqCommand
  | .publish topic payload payloadlen qos retain =>
    (xstring payload payloadlen).map fun payload =>
      .publish commandId (cString topic) payload qos retain
  | .subscribe topic qos => some (.subscribe commandId (cString topic) qos)
  | .unsubscribe topic => some (.unsubscribe commandId (cString topic))

/-- A command in the heap. The serial number stands for its address and tells two objects with the
same content apart. -/
structure Queued where
  /-- How many commands were pushed before this one. -/
  serial : Nat
  /-- The content. -/
  command : MosqCommand
  deriving DecidableEq, Repr

/-! ## Program counters -/

/-- Where `SubscribeLoop` stands. Its local `reconnect` is a parameter where it may be `false`. -/
inductive SubscribePc
  /-- Before `while (state_ != Stopping)`. -/
  | test (reconnect : Bool)
  /-- In `mosquitto_connect`, or in `mosquitto_reconnect`. -/
  | connecting (reconnect : Bool)
  /-- Before `state_ = Running`. -/
  | connected
  /-- In `mosquitto_loop`. -/
  | looping
  /-- Before `while (state_ != Stopping && rc == MOSQ_ERR_SUCCESS)`. -/
  | looped (rc : Int32)
  /-- Before `state_ = Reconnecting`. -/
  | dropped
  /-- In `sleep(delay.get())`. -/
  | sleeping (reconnect : Bool)
  /-- The loop has been left. -/
  | exited
  deriving Repr

/-- Where `PublishLoop` stands. -/
inductive PublishPc
  /-- Before `while (state_ != Stopping)`. -/
  | test
  /-- Before `if (state_ != Running)`. -/
  | testRunning
  /-- In `sleep(1)`. -/
  | sleeping
  /-- In `commands_.Get`, before the lock is taken. -/
  | getting
  /-- In `commands_.Get`, waiting for the condition variable. -/
  | waiting
  /-- Before `command->Run()`. -/
  | holding (q : Queued)
  /-- Before `delete command`. -/
  | ran (q : Queued)
  /-- The loop has been left. -/
  | exited
  deriving DecidableEq, Repr

/-- Where the call of `Stop` stands. -/
inductive StopPc
  /-- `Stop` has not written `state_`. -/
  | idle
  /-- In `pthread_join(publishloop_thread_, NULL)`. -/
  | joiningPublisher
  /-- In `pthread_join(subscribeloop_thread_, NULL)`. -/
  | joiningSubscriber
  /-- Before `state_ = Stopped`. -/
  | joined
  /-- `Stop` has written `state_` for the second time. -/
  | returned
  deriving DecidableEq, Repr

/-! ## The client -/

/-- The fields of `MosqClient` that the threads share, where each thread stands, and the history of
the queue. -/
structure Client where
  /-- `state_`. -/
  state : RunningState
  /-- Where `SubscribeLoop` stands. -/
  subscriber : SubscribePc
  /-- Where `PublishLoop` stands. -/
  publisher : PublishPc
  /-- Where `Stop` stands. -/
  stopper : StopPc
  /-- `command_id_`. -/
  commandId : Int64
  /-- The commands of the calls that have drawn a command id and not yet pushed. -/
  callers : List MosqCommand
  /-- `commands_`. -/
  commands : List Queued
  /-- History: everything pushed so far, in push order. -/
  pushed : List Queued
  /-- History: how many commands were pushed when `Stop` wrote `state_`. -/
  pushedAtStop : Option Nat
  /-- History: the commands handed to libmosquitto, in order, with the result of each hand-over. -/
  handed : List (Queued × Int32)
  deriving Repr

/-- One step of one thread, with the results of the calls it makes. -/
inductive Label
  /-- A caller of `Publish`, `Subscribe` or `Unsubscribe` draws a command id and allocates. -/
  | issue (r : Request)
  /-- The `i`-th of the waiting callers pushes. -/
  | push (i : Nat)
  /-- `SubscribeLoop` tests its loop condition. -/
  | subscribeTest
  /-- `mosquitto_connect` or `mosquitto_reconnect` returns. -/
  | connectReturns (rc : Int32)
  /-- `SubscribeLoop` sets `state_` to `Running`. -/
  | setRunning
  /-- `mosquitto_loop` returns. -/
  | loopReturns (rc : Int32)
  /-- `SubscribeLoop` tests the condition of its inner loop. -/
  | loopTest
  /-- `SubscribeLoop` sets `state_` to `Reconnecting`. -/
  | setReconnecting
  /-- The sleep of `SubscribeLoop` ends. -/
  | subscribeWakes
  /-- `PublishLoop` tests its loop condition. -/
  | publishTest
  /-- `PublishLoop` tests `state_ != Running`. -/
  | runningTest
  /-- The sleep of `PublishLoop` ends. -/
  | publishWakes
  /-- `TaskQueue::Get` takes the lock. -/
  | get
  /-- `pthread_cond_wait` returns, without an error or with one. -/
  | waitReturns (ok : Bool)
  /-- `command->Run()` returns. -/
  | run (rc : Int32)
  /-- `PublishLoop` deletes the command. -/
  | delete
  /-- `Stop` sets `state_` to `Stopping`. -/
  | stop
  /-- The thread of `PublishLoop` is joined. -/
  | joinPublisher
  /-- The thread of `SubscribeLoop` is joined. -/
  | joinSubscriber
  /-- `Stop` sets `state_` to `Stopped`. -/
  | setStopped
  deriving Repr

namespace Client

/-- The client after `Start`. -/
def start : Client where
  state := .stopped
  subscriber := .test false
  publisher := .test
  stopper := .idle
  commandId := 0
  callers := []
  commands := []
  pushed := []
  pushedAtStop := none
  handed := []

/-- `TaskQueue::Get` under the lock: the front of the queue is popped if there is one; otherwise
`empty` follows. -/
def pop (c : Client) (empty : PublishPc) : Client :=
  match c.commands with
  | [] => { c with publisher := empty }
  | q :: commands => { c with publisher := .holding q, commands := commands }

/-- `TaskQueue::Push`, of the next object. -/
def enqueue (c : Client) (command : MosqCommand) : Client :=
  { c with
    commands := c.commands ++ [⟨c.pushed.length, command⟩]
    pushed := c.pushed ++ [⟨c.pushed.length, command⟩] }

/-- A step of `Publish`, `Subscribe` or `Unsubscribe`. -/
def issue (c : Client) (r : Request) : Option Client :=
  let id := c.commandId + 1
  (r.command id.toInt32).map fun command =>
    { c with commandId := id, callers := c.callers ++ [command] }

/-- The push at the end of `Publish`, `Subscribe` or `Unsubscribe`. -/
def push (c : Client) (i : Nat) : Option Client :=
  c.callers[i]?.map fun command => { c.enqueue command with callers := c.callers.eraseIdx i }

/-- A step of `SubscribeLoop`. -/
def subscribeStep (c : Client) : Label → SubscribePc → Option Client
  | .subscribeTest, .test reconnect =>
    some { c with subscriber := if c.state ≠ .stopping then .connecting reconnect else .exited }
  | .connectReturns rc, .connecting reconnect =>
    some { c with
      subscriber := if rc = MOSQ_ERR_SUCCESS then .connected else .sleeping reconnect }
  | .setRunning, .connected => some { c with state := .running, subscriber := .looping }
  | .loopReturns rc, .looping => some { c with subscriber := .looped rc }
  | .loopTest, .looped rc =>
    some { c with
      subscriber := if c.state ≠ .stopping ∧ rc = MOSQ_ERR_SUCCESS then .looping else .dropped }
  | .setReconnecting, .dropped =>
    some { c with state := .reconnecting, subscriber := .sleeping true }
  | .subscribeWakes, .sleeping reconnect => some { c with subscriber := .test reconnect }
  | _, _ => none

-- Only now: the equations of a match on `looped rc` would be decided over all values of `rc`.
deriving instance DecidableEq for SubscribePc

/-- A step of `PublishLoop`. -/
def publishStep (c : Client) : Label → PublishPc → Option Client
  | .publishTest, .test =>
    some { c with publisher := if c.state ≠ .stopping then .testRunning else .exited }
  | .runningTest, .testRunning =>
    some { c with publisher := if c.state ≠ .running then .sleeping else .getting }
  | .publishWakes, .sleeping => some { c with publisher := .test }
  | .get, .getting => some (c.pop .waiting)
  | .waitReturns ok, .waiting =>
    some (if ok then c.pop .test else { c with publisher := .test })
  | .run rc, .holding q =>
    some { c with publisher := .ran q, handed := c.handed ++ [(q, rc)] }
  | .delete, .ran _ => some { c with publisher := .test }
  | _, _ => none

/-- A step of `Stop`. -/
def stopStep (c : Client) : Label → StopPc → Option Client
  | .stop, .idle =>
    some { c with
      state := .stopping
      stopper := .joiningPublisher
      pushedAtStop := some c.pushed.length }
  | .joinPublisher, .joiningPublisher =>
    if c.publisher = .exited then some { c with stopper := .joiningSubscriber } else none
  | .joinSubscriber, .joiningSubscriber =>
    if c.subscriber = .exited then some { c with stopper := .joined } else none
  | .setStopped, .joined => some { c with state := .stopped, stopper := .returned }
  | _, _ => none

/-- One step of the client. -/
def next (c : Client) (l : Label) : Option Client :=
  match l with
  | .issue r => c.issue r
  | .push i => c.push i
  | .stop | .joinPublisher | .joinSubscriber | .setStopped => c.stopStep l c.stopper
  | .publishTest | .runningTest | .publishWakes | .get | .waitReturns _ | .run _ | .delete =>
    c.publishStep l c.publisher
  | _ => c.subscribeStep l c.subscriber

/-- A step is a step of one of the threads. -/
theorem next_cases {c c' : Client} {l : Label} (h : c.next l = some c') :
    (∃ r, l = .issue r ∧ c.issue r = some c') ∨ (∃ i, l = .push i ∧ c.push i = some c') ∨
      c.subscribeStep l c.subscriber = some c' ∨ c.publishStep l c.publisher = some c' ∨
      c.stopStep l c.stopper = some c' := by
  cases l with
  | issue r => exact .inl ⟨r, rfl, h⟩
  | push i => exact .inr (.inl ⟨i, rfl, h⟩)
  | stop | joinPublisher | joinSubscriber | setStopped => exact .inr (.inr (.inr (.inr h)))
  | publishTest | runningTest | publishWakes | get | waitReturns | run | delete =>
    exact .inr (.inr (.inr (.inl h)))
  | subscribeTest | connectReturns | setRunning | loopReturns | loopTest | setReconnecting
  | subscribeWakes => exact .inr (.inr (.inl h))

/-- What a step of `Stop` does. -/
theorem stopStep_cases {c c' : Client} {l : Label} (h : c.stopStep l c.stopper = some c') :
    (l = .stop ∧ c.stopper = .idle ∧
      c' = { c with
        state := .stopping
        stopper := .joiningPublisher
        pushedAtStop := some c.pushed.length }) ∨
    (l = .joinPublisher ∧ c.stopper = .joiningPublisher ∧ c.publisher = .exited ∧
      c' = { c with stopper := .joiningSubscriber }) ∨
    (l = .joinSubscriber ∧ c.stopper = .joiningSubscriber ∧ c.subscriber = .exited ∧
      c' = { c with stopper := .joined }) ∨
    (l = .setStopped ∧ c.stopper = .joined ∧
      c' = { c with state := .stopped, stopper := .returned }) := by
  unfold stopStep at h
  split at h
  case h_1 hpc => exact .inl ⟨rfl, hpc, by simpa using h.symm⟩
  case h_2 hpc =>
    obtain ⟨hexited, hc'⟩ := Option.ite_none_right_eq_some.mp h
    exact .inr (.inl ⟨rfl, hpc, hexited, by simpa using hc'.symm⟩)
  case h_3 hpc =>
    obtain ⟨hexited, hc'⟩ := Option.ite_none_right_eq_some.mp h
    exact .inr (.inr (.inl ⟨rfl, hpc, hexited, by simpa using hc'.symm⟩))
  case h_4 hpc => exact .inr (.inr (.inr ⟨rfl, hpc, by simpa using h.symm⟩))
  case h_5 => cases h

end Client

/-- The client as a transition system. -/
def client : TransitionSystem Client Label where
  init := .start
  next := Client.next

end MosqCluster
