import Mathlib.Logic.Function.Basic
import MosqCluster.Foundation.TransitionSystem
import MosqCluster.Helper.XString

/-!
# The event loop

`ServerLoopMain` of `server/server.cpp`, over any callbacks. A label is one turn of the loop thread
together with what the system call in it returns: one call of `epoll_wait`, one event, one `accept`,
one `recv`. Between two turns other threads may change whatever the callbacks work on.

The clients that `malloc` returns are numbered. `none` is a step that is not enabled, the end of the
process, or undefined behaviour: a client that has been freed, or an `index_` that was never set.
`SlotTable` shows that the latter does not come about. A closed socket that is registered nowhere
and the published copy `ctx->accept_size_` are left out, and the loop is not stopped.

## Main definitions

* `SocketContext`, `ServerHandle`: a client, and the callbacks with their time limits;
* `ServerLoop` and `ServerLoop.next`: the locals of the loop and one turn of it;
* `serverLoop`: the transition system.
-/

namespace MosqCluster.Server

/-- `ClientContext`. `userptr_` is `none` where it is `NULL`. -/
structure ClientContext (P : Type*) where
  fd : Int
  userptr : Option P

/-- `SocketContext`. -/
structure SocketContext (P : Type*) where
  fd : Int
  /-- `index_`; `none` while it is not initialised. -/
  index : Option Nat
  readTimestamp : Int
  writeTimestamp : Int
  readTimeout : Int
  writeTimeout : Int
  cli : ClientContext P

/-- `ServerHandle`: the callbacks, which work on a value of type `U`, and the time limits. -/
structure ServerHandle (U P : Type*) where
  /-- `accept_cb`, which may set `userptr_`. -/
  acceptCb : U → ClientContext P → U × Option P
  /-- `read_cb`; `none` where it ends the process. -/
  readCb : U → ClientContext P → Bytes → Option (U × Int)
  /-- `close_cb`. -/
  closeCb : U → ClientContext P → U
  /-- `timeout_cb`. -/
  timeoutCb : U → ClientContext P → U
  readTimeout : Int
  writeTimeout : Int

/-- `max_events_count`. -/
def maxEventsCount : Nat := 128 * 1024

/-- `max_accept_size`. -/
def maxAcceptSize : Nat := 1024 * 1024

/-- `recvbuf_size`. -/
def recvbufSize : Nat := 16 * 1024

/-! ## What the system calls return -/

/-- `e.data.ptr`. -/
inductive Source
  | listenSocket
  | client (p : Nat)
  deriving DecidableEq

/-- `epoll_event`, with the flags that the loop tests. -/
structure EpollEvent where
  source : Source
  epollIn : Bool
  epollHup : Bool
  epollRdhup : Bool

/-- What `recv` returns. -/
inductive Recv
  /-- A positive size. -/
  | data (bytes : Bytes)
  /-- The size zero. -/
  | closed
  /-- An error, `EAGAIN` or `EWOULDBLOCK`. -/
  | again
  /-- Any other error. -/
  | failed

/-! ## The loop -/

/-- Where the loop stands. -/
inductive Pc
  /-- Before `epoll_wait`. -/
  | wait
  /-- Before an event, with the events behind it. -/
  | event (now : Int) (e : EpollEvent) (rest : List EpollEvent)
  /-- Before `accept`. -/
  | accepting (now : Int) (rest : List EpollEvent)
  /-- Before `recv`, for a client, with the local `remove`. -/
  | reading (now : Int) (e : EpollEvent) (p : Nat) (rest : List EpollEvent) (remove : Bool)

/-- Where the loop goes on when an event has been dealt with. -/
def Pc.resume (now : Int) : List EpollEvent → Pc
  | [] => .wait
  | e :: rest => .event now e rest

/-- What the history of the loop records. -/
inductive Act
  /-- A call of `recv` on the socket of a client. -/
  | recv (p : Nat)
  /-- A call of `read_cb` for a client, and its result. -/
  | readCb (p : Nat) (result : Int)
  deriving DecidableEq

/-- The locals of `ServerLoopMain`, the clients, and the registered descriptors. -/
structure ServerLoop (U P : Type*) where
  pc : Pc
  /-- `accept_size`. -/
  acceptSize : Int
  /-- `accept_queue`; `none` is `NULL`. -/
  acceptQueue : Nat → Option Nat
  /-- The clients that have been allocated and not freed. -/
  heap : Nat → Option (SocketContext P)
  /-- How many clients have been allocated. -/
  allocated : Nat
  /-- The clients whose sockets are registered with `epfd`. -/
  interest : List Nat
  /-- What the callbacks work on. -/
  user : U
  /-- History: the calls of `recv` and `read_cb`. -/
  history : List Act

/-- One turn of the loop, or of the rest of the program. -/
inductive Label (U : Type*)
  /-- `epoll_wait` returns events at a time, or an error (`none`). -/
  | wait (now : Int) (events : Option (List EpollEvent))
  /-- The next event. -/
  | event
  /-- `accept` returns a descriptor, or an error. -/
  | accept (socket : Int)
  /-- `recv` returns. -/
  | recv (r : Recv)
  /-- Other threads change what the callbacks work on. -/
  | user (u : U)

namespace ServerLoop

variable {U P : Type*}

/-- The loop before its first turn. -/
def start (user : U) : ServerLoop U P where
  pc := .wait
  acceptSize := 0
  acceptQueue := fun _ => none
  heap := fun _ => none
  allocated := 0
  interest := []
  user := user
  history := []

/-- What is registered with `epfd`. -/
def registered (s : ServerLoop U P) : List Source := .listenSocket :: s.interest.map .client

/-- What `epoll_wait` may return: events of registered descriptors, each at most once. -/
def MayReturn (s : ServerLoop U P) (events : List EpollEvent) : Prop :=
  (events.map EpollEvent.source).Nodup ∧ (∀ e ∈ events, e.source ∈ s.registered) ∧
    events.length ≤ maxEventsCount

instance (s : ServerLoop U P) (events : List EpollEvent) : Decidable (s.MayReturn events) :=
  inferInstanceAs (Decidable (_ ∧ _ ∧ _))

/-- The first free slot among those below `n`. -/
def freeSlot (acceptQueue : Nat → Option Nat) (n : Nat) : Option Nat :=
  (List.range n).find? fun i => (acceptQueue i).isNone

variable (h : ServerHandle U P)

/-- A new client, in the slot that the scan has found. -/
def newClient (now socket : Int) (slot : Option Nat) (userptr : Option P) : SocketContext P where
  fd := socket
  index := slot
  readTimestamp := now
  writeTimestamp := -1
  readTimeout := now + h.readTimeout
  writeTimeout := -1
  cli := ⟨socket, userptr⟩

/-- `accept` has returned a descriptor. -/
def insert (s : ServerLoop U P) (now : Int) (rest : List EpollEvent) (socket : Int) :
    ServerLoop U P :=
  -- `accept_size` has been incremented when it is compared, and counts the new client in the scan
  if s.acceptSize + 1 > maxAcceptSize then { s with pc := .resume now rest }
  else
    -- without a free slot, `index_` would not be set
    let slot := freeSlot s.acceptQueue (s.acceptSize + 1).toNat
    let accepted := h.acceptCb s.user ⟨socket, none⟩
    { s with
      acceptSize := s.acceptSize + 1
      acceptQueue := slot.elim s.acceptQueue fun i =>
        Function.update s.acceptQueue i (some s.allocated)
      heap := Function.update s.heap s.allocated (some (newClient h now socket slot accepted.2))
      allocated := s.allocated + 1
      interest := s.interest ++ [s.allocated]
      user := accepted.1 }

/-- `epoll_ctl` with `EPOLL_CTL_DEL`, `close_cb` and `close`, of a client whose socket is open. -/
def hangUp (s : ServerLoop U P) (p : Nat) (c : SocketContext P) : ServerLoop U P :=
  if c.fd > 0 then { s with interest := s.interest.erase p, user := h.closeCb s.user c.cli } else s

section HangUp

variable (s : ServerLoop U P) (p : Nat) (c : SocketContext P)

@[simp]
theorem hangUp_pc : (s.hangUp h p c).pc = s.pc := by
  unfold hangUp
  split <;> rfl

@[simp]
theorem hangUp_acceptQueue : (s.hangUp h p c).acceptQueue = s.acceptQueue := by
  unfold hangUp
  split <;> rfl

@[simp]
theorem hangUp_heap : (s.hangUp h p c).heap = s.heap := by
  unfold hangUp
  split <;> rfl

@[simp]
theorem hangUp_allocated : (s.hangUp h p c).allocated = s.allocated := by
  unfold hangUp
  split <;> rfl

@[simp]
theorem hangUp_history : (s.hangUp h p c).history = s.history := by
  unfold hangUp
  split <;> rfl

end HangUp

/-- A client leaves the slot `i` and is freed. -/
def free (s : ServerLoop U P) (p i : Nat) : ServerLoop U P :=
  { s with
    acceptQueue := Function.update s.acceptQueue i none
    acceptSize := s.acceptSize - 1
    heap := Function.update s.heap p none }

/-- Freeing a client leaves the others alone. -/
theorem heap_of_free {s : ServerLoop U P} {p i p' : Nat} {c' : SocketContext P}
    (hc' : (s.free p i).heap p' = some c') : p' ≠ p ∧ s.heap p' = some c' := by
  by_cases hp : p' = p
  · simp [free, hp] at hc'
  · exact ⟨hp, by simpa [free, hp] using hc'⟩

/-- The removal at the end of an event. -/
def remove (s : ServerLoop U P) (p : Nat) : Option (ServerLoop U P) :=
  (s.heap p).bind fun c => c.index.map fun i => (s.free p i).hangUp h p c

/-- The end of an event of a client. -/
def finish (s : ServerLoop U P) (now : Int) (e : EpollEvent) (p : Nat) (rest : List EpollEvent)
    (remove : Bool) : Option (ServerLoop U P) :=
  if e.epollHup || e.epollRdhup || remove then
    (s.remove h p).map fun s => { s with pc := .resume now rest }
  else some { s with pc := .resume now rest }

/-- A client that is readable. -/
def readable (c : SocketContext P) (now : Int) : SocketContext P :=
  { c with readTimestamp := now, readTimeout := now + h.readTimeout }

/-- The next event. -/
def onEvent (s : ServerLoop U P) (now : Int) (e : EpollEvent) (rest : List EpollEvent) :
    Option (ServerLoop U P) :=
  match e.source with
  | .listenSocket =>
    -- `accept` is called until it fails
    some { s with pc := if e.epollIn then .accepting now rest else .resume now rest }
  | .client p =>
    (s.heap p).bind fun c =>
      -- `recv` is called until it returns no data
      if e.epollIn then
        some { s with
          heap := Function.update s.heap p (some (readable h c now))
          pc := .reading now e p rest false }
      else s.finish h now e p rest false

/-- A client whose `read_cb` has returned a negative value. -/
def dispatched (c : SocketContext P) (now : Int) : SocketContext P :=
  { c with
    fd := -1
    readTimestamp := -1
    readTimeout := -1
    writeTimestamp := now
    writeTimeout := now + h.writeTimeout }

/-- `read_cb` has returned a negative value: the client is marked for removal, and the loop goes on
to `recv`. -/
def dispatch (s : ServerLoop U P) (now : Int) (e : EpollEvent) (p : Nat) (rest : List EpollEvent)
    (c : SocketContext P) (read : U × Int) : ServerLoop U P :=
  { s with
    pc := .reading now e p rest true
    interest := s.interest.erase p
    heap := Function.update s.heap p (some (dispatched h c now))
    user := read.1
    history := s.history ++ [.recv p, .readCb p read.2] }

/-- `read_cb` has returned another value: the loop goes on to `recv`. -/
def readMore (s : ServerLoop U P) (p : Nat) (read : U × Int) : ServerLoop U P :=
  { s with
    user := read.1
    history := s.history ++ [.recv p, .readCb p read.2] }

/-- `recv` has returned bytes. -/
def onData (s : ServerLoop U P) (now : Int) (e : EpollEvent) (p : Nat) (rest : List EpollEvent)
    (bytes : Bytes) : Option (ServerLoop U P) :=
  (s.heap p).bind fun c => (h.readCb s.user c.cli bytes).map fun read =>
    if read.2 < 0 then s.dispatch h now e p rest c read else s.readMore p read

/-- `recv` has returned. -/
def onRecv (s : ServerLoop U P) (now : Int) (e : EpollEvent) (p : Nat) (rest : List EpollEvent)
    (remove : Bool) (r : Recv) : Option (ServerLoop U P) :=
  let received := { s with history := s.history ++ [Act.recv p] }
  match r with
  | .data bytes =>
    -- `size > 0`: the loop goes on to `recv`, whatever `read_cb` returns
    if 0 < bytes.length ∧ bytes.length ≤ recvbufSize then s.onData h now e p rest bytes else none
  -- `size == 0`, or an `errno` that says more than that there are no data now
  | .closed | .failed => received.finish h now e p rest true
  | .again => received.finish h now e p rest remove

/-- The client is past one of its deadlines. -/
def Expired (now : Int) (c : SocketContext P) : Prop :=
  (c.readTimestamp > 0 ∧ now > c.readTimeout) ∨ (c.writeTimestamp > 0 ∧ now > c.writeTimeout)

instance (now : Int) (c : SocketContext P) : Decidable (Expired now c) :=
  inferInstanceAs (Decidable (_ ∨ _))

/-- One slot of the time-out sweep. The local `active_size`, which becomes `accept_size` at the end,
is counted down in `acceptSize`. -/
def sweepSlot (now : Int) (s : ServerLoop U P) (i : Nat) : Option (ServerLoop U P) :=
  match s.acceptQueue i with
  | none => some s
  | some p => (s.heap p).map fun c =>
    if Expired now c then
      ({ s with user := h.timeoutCb s.user c.cli }.free p i).hangUp h p c
    else s

/-- The time-out sweep, over the slots below the value that `accept_size` has at its start. -/
def sweep (s : ServerLoop U P) (now : Int) : Option (ServerLoop U P) :=
  (List.range s.acceptSize.toNat).foldlM (sweepSlot h now) s

/-- One turn. -/
def next (s : ServerLoop U P) : Label U → Option (ServerLoop U P)
  | .wait now events =>
    match s.pc, events with
    | .wait, none => s.sweep h now
    | .wait, some events =>
      if s.MayReturn events then some { s with pc := .resume now events } else none
    | _, _ => none
  | .event =>
    match s.pc with
    | .event now e rest => s.onEvent h now e rest
    | _ => none
  | .accept socket =>
    match s.pc with
    | .accepting now rest =>
      if socket > 0 then some (s.insert h now rest socket)
      else some { s with pc := .resume now rest }
    | _ => none
  | .recv r =>
    match s.pc with
    | .reading now e p rest remove => s.onRecv h now e p rest remove r
    | _ => none
  | .user user => some { s with user }

/-! ## What a turn does -/

variable {h} {s s' : ServerLoop U P} {l : Label U}

/-- A turn is one of these. -/
theorem next_cases (hnext : s.next h l = some s') :
    (∃ now, l = .wait now none ∧ s.pc = .wait ∧ s.sweep h now = some s') ∨
    (∃ now events, l = .wait now (some events) ∧ s.pc = .wait ∧ s.MayReturn events ∧
      s' = { s with pc := .resume now events }) ∨
    (∃ now e rest, l = .event ∧ s.pc = .event now e rest ∧ s.onEvent h now e rest = some s') ∨
    (∃ now rest socket, l = .accept socket ∧ s.pc = .accepting now rest ∧
      (0 < socket ∧ s' = s.insert h now rest socket ∨ s' = { s with pc := .resume now rest })) ∨
    (∃ now e p rest remove r, l = .recv r ∧ s.pc = .reading now e p rest remove ∧
      s.onRecv h now e p rest remove r = some s') ∨
    ∃ user, l = .user user ∧ s' = { s with user } := by
  cases l with
  | wait now events =>
    simp only [next] at hnext
    -- `count < 0`, and then `count >= 0`
    split at hnext
    · exact .inl ⟨now, rfl, ‹_›, hnext⟩
    · obtain ⟨hevents, hnext⟩ := Option.ite_none_right_eq_some.mp hnext
      exact .inr (.inl ⟨now, _, rfl, ‹_›, hevents, (Option.some.inj hnext).symm⟩)
    · cases hnext
  | event =>
    simp only [next] at hnext
    split at hnext
    · exact .inr (.inr (.inl ⟨_, _, _, rfl, ‹_›, hnext⟩))
    · cases hnext
  | accept socket =>
    simp only [next] at hnext
    split at hnext
    · refine .inr (.inr (.inr (.inl ⟨_, _, socket, rfl, ‹_›, ?_⟩)))
      -- a socket, or the end of the loop around `accept`
      split at hnext
      · exact .inl ⟨‹_›, (Option.some.inj hnext).symm⟩
      · exact .inr (Option.some.inj hnext).symm
    · cases hnext
  | recv r =>
    simp only [next] at hnext
    split at hnext
    · exact .inr (.inr (.inr (.inr (.inl ⟨_, _, _, _, _, r, rfl, ‹_›, hnext⟩))))
    · cases hnext
  | user user => exact .inr (.inr (.inr (.inr (.inr ⟨user, rfl, (Option.some.inj hnext).symm⟩))))

variable {now : Int} {e : EpollEvent} {p : Nat} {rest : List EpollEvent} {rem : Bool}

/-- The end of an event removes the client or leaves everything as it is. -/
theorem finish_cases (hfinish : s.finish h now e p rest rem = some s') :
    ((e.epollHup || e.epollRdhup || rem) = true ∧ ∃ c i, s.heap p = some c ∧ c.index = some i ∧
      s' = { (s.free p i).hangUp h p c with pc := .resume now rest }) ∨
    ((e.epollHup || e.epollRdhup || rem) = false ∧ s' = { s with pc := .resume now rest }) := by
  unfold finish at hfinish
  split at hfinish
  · obtain ⟨s₁, hremove, rfl⟩ := Option.map_eq_some_iff.mp hfinish
    obtain ⟨c, hc, hmap⟩ := Option.bind_eq_some_iff.mp hremove
    obtain ⟨i, hi, rfl⟩ := Option.map_eq_some_iff.mp hmap
    exact .inl ⟨‹_›, c, i, hc, hi, rfl⟩
  · exact .inr ⟨eq_false_of_ne_true ‹_›, (Option.some.inj hfinish).symm⟩

/-- An event is that of the listening socket, or starts to read from a client, or ends at once. -/
theorem onEvent_cases (hevent : s.onEvent h now e rest = some s') :
    (e.source = .listenSocket ∧
      s' = { s with pc := if e.epollIn then .accepting now rest else .resume now rest }) ∨
    (∃ p c, e.source = .client p ∧ s.heap p = some c ∧ e.epollIn = true ∧
      s' = { s with
        heap := Function.update s.heap p (some (readable h c now))
        pc := .reading now e p rest false }) ∨
    ∃ p, e.source = .client p ∧ e.epollIn = false ∧ s.finish h now e p rest false = some s' := by
  unfold onEvent at hevent
  split at hevent
  · exact .inl ⟨‹_›, (Option.some.inj hevent).symm⟩
  · -- a client is not looked at once it has been freed
    obtain ⟨c, hc, hevent⟩ := Option.bind_eq_some_iff.mp hevent
    split at hevent
    · exact .inr (.inl ⟨_, c, ‹_›, hc, ‹_›, (Option.some.inj hevent).symm⟩)
    · exact .inr (.inr ⟨_, ‹_›, eq_false_of_ne_true ‹_›, hevent⟩)

/-- Bytes go to `read_cb`; anything else ends the event. -/
theorem onRecv_cases {r : Recv} (hrecv : s.onRecv h now e p rest rem r = some s') :
    (∃ bytes c read, r = .data bytes ∧ s.heap p = some c ∧
      h.readCb s.user c.cli bytes = some read ∧
        (read.2 < 0 ∧ s' = s.dispatch h now e p rest c read ∨
          0 ≤ read.2 ∧ s' = s.readMore p read)) ∨
    ∃ rem', (r = .closed ∧ rem' = true ∨ r = .failed ∧ rem' = true ∨ r = .again ∧ rem' = rem) ∧
      { s with history := s.history ++ [Act.recv p] }.finish h now e p rest rem' = some s' := by
  cases r with
  | data bytes =>
    obtain ⟨-, hdata⟩ := Option.ite_none_right_eq_some.mp hrecv
    obtain ⟨c, hc, hdata⟩ := Option.bind_eq_some_iff.mp hdata
    obtain ⟨read, hread, hs'⟩ := Option.map_eq_some_iff.mp hdata
    refine .inl ⟨bytes, c, read, rfl, hc, hread, ?_⟩
    -- `read_cb` decides whether the client is dispatched
    by_cases hneg : read.2 < 0
    · exact .inl ⟨hneg, by rw [← hs', if_pos hneg]⟩
    · exact .inr ⟨by omega, by rw [← hs', if_neg hneg]⟩
  | closed => exact .inr ⟨true, .inl ⟨rfl, rfl⟩, hrecv⟩
  | failed => exact .inr ⟨true, .inr (.inl ⟨rfl, rfl⟩), hrecv⟩
  | again => exact .inr ⟨rem, .inr (.inr ⟨rfl, rfl⟩), hrecv⟩

end ServerLoop

/-- The event loop as a transition system. -/
def serverLoop {U P : Type*} (h : ServerHandle U P) (user : U) :
    TransitionSystem (ServerLoop U P) (Label U) where
  init := .start user
  next := ServerLoop.next h

end MosqCluster.Server
