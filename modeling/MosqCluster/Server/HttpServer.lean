import MosqCluster.Http.Request
import MosqCluster.Server.Reaping

/-!
# The HTTP server

The callbacks of `server/http_server.cpp` under the event loop, and the worker threads that run the
`HttpTask`s. Requests are numbered in the order in which they are created; a task is named by its
request. What a handler answers, the sockets, and the tasks that send the rest of an answer hold no
request and are left out.

`Run` of a task is any number of uses of its request. After the use of a deleted request anything
may happen: the model records it in `misused` and lets `OnRead` return `0`.

## Main definitions

* `HttpServer`: the requests and the tasks;
* `HttpServer.handle` and `HttpServer.work`: the callbacks, and a step of a worker thread;
* `httpServer`: the event loop with these callbacks, and the worker threads;
* `Ledger`: what holds of clients, requests and tasks in every run.
-/

namespace MosqCluster.Server

open Http

/-- The requests and the tasks. -/
structure HttpServer where
  /-- The requests that have been created and not deleted. -/
  requests : Nat → Option HttpRequest
  /-- How many requests have been created. -/
  created : Nat
  /-- The tasks in the queue of the thread pool. -/
  queued : List Nat
  /-- The tasks that the worker threads have taken from the queue and not finished. -/
  running : List Nat
  /-- History: the tasks that have been pushed. -/
  pushed : List Nat
  /-- History: a request has been used or deleted after it had been deleted. -/
  misused : Bool

/-- The number of worker threads that `Start` creates. -/
def poolSize : Nat := 20

/-- What a worker thread does. -/
inductive WorkerStep
  /-- It takes a task from the queue. -/
  | take
  /-- A statement of `Run` uses the request of the task. -/
  | run (i : Nat)
  /-- `Finish`, which deletes the task and its request. -/
  | finish (i : Nat)

namespace HttpServer

/-- The server when its loop starts. -/
def empty : HttpServer where
  requests := fun _ => none
  created := 0
  queued := []
  running := []
  pushed := []
  misused := false

/-! ## Callbacks -/

/-- `OnAccept`. -/
def onAccept (w : HttpServer) (_ : ClientContext Nat) : HttpServer × Option Nat :=
  ({ w with
      requests := Function.update w.requests w.created (some .fresh)
      created := w.created + 1 },
    some w.created)

/-- `OnRead`, for the request `q`. -/
def read (w : HttpServer) (q : Nat) (data : Bytes) : Option (HttpServer × Int) :=
  match w.requests q with
  | none => some ({ w with misused := true }, 0)
  | some r => (r.append data).map fun r =>
    if r.finished then
      ({ w with
          requests := Function.update w.requests q (some r)
          queued := w.queued ++ [q]
          pushed := w.pushed ++ [q] },
        -1)
    else ({ w with requests := Function.update w.requests q (some r) }, 0)

/-- `OnRead`. -/
def onRead (w : HttpServer) (client : ClientContext Nat) (data : Bytes) :
    Option (HttpServer × Int) :=
  client.userptr.bind fun q => w.read q data

/-- `OnClose`. -/
def onClose (w : HttpServer) (_ : ClientContext Nat) : HttpServer := w

/-- `OnTimeOut`. -/
def onTimeOut (w : HttpServer) (_ : ClientContext Nat) : HttpServer := w

/-- `HttpServer::HttpServer`. -/
def handle : ServerHandle HttpServer Nat where
  acceptCb := onAccept
  readCb := onRead
  closeCb := onClose
  timeoutCb := onTimeOut
  readTimeout := 15
  writeTimeout := 5

/-! ## Worker threads -/

/-- A step of a worker thread. -/
def work (w : HttpServer) : WorkerStep → Option HttpServer
  | .take =>
    match w.queued with
    | [] => none
    | q :: rest =>
      if w.running.length < poolSize then
        some { w with queued := rest, running := w.running ++ [q] }
      else none
  | .run i => w.running[i]?.map fun q =>
    { w with misused := w.misused || (w.requests q).isNone }
  | .finish i => w.running[i]?.map fun q =>
    { w with
      running := w.running.eraseIdx i
      requests := Function.update w.requests q none
      misused := w.misused || (w.requests q).isNone }

/-- The requests of the tasks that are queued or running. -/
def tasks (w : HttpServer) : List Nat := w.queued ++ w.running

end HttpServer

/-! ## The system -/

/-- A step of the loop thread or of a worker thread. -/
inductive HttpLabel
  | loop (l : Label HttpServer)
  | worker (step : WorkerStep)

namespace HttpServer

/-- One step. -/
def next (s : ServerLoop HttpServer Nat) : HttpLabel → Option (ServerLoop HttpServer Nat)
  | .loop (.user _) => none
  | .loop l => s.next handle l
  | .worker step => (s.user.work step).map fun user => { s with user }

end HttpServer

/-- The event loop with the callbacks of `HttpServer`, and the worker threads. -/
def httpServer : TransitionSystem (ServerLoop HttpServer Nat) HttpLabel where
  init := .start .empty
  next := HttpServer.next

/-! ## What a step does -/

/-- The client that is about to be removed because `read_cb` has returned a negative value. -/
def Pc.removing : Pc → Option Nat
  | .reading _ _ p _ true => some p
  | _ => none

@[simp]
theorem Pc.removing_resume (now : Int) (events : List EpollEvent) :
    (Pc.resume now events).removing = none := by
  cases events <;> rfl

namespace HttpServer

variable {w w' : HttpServer} {s s' : ServerLoop HttpServer Nat}

/-- A step is one of the loop or one of a worker thread. -/
theorem next_cases {l : HttpLabel} (hnext : httpServer.next s l = some s') :
    (∃ l', l = .loop l' ∧ (∀ user, l' ≠ .user user) ∧ s.next handle l' = some s') ∨
    ∃ step user, l = .worker step ∧ s.user.work step = some user ∧ s' = { s with user } := by
  cases l with
  | loop l =>
    cases l with
    -- the server has no label for a change of its own state
    | user user => cases hnext
    | _ => exact .inl ⟨_, rfl, nofun, hnext⟩
  -- `work` changes what belongs to the callbacks only
  | worker step =>
    obtain ⟨user, hwork, rfl⟩ := Option.map_eq_some_iff.mp hnext
    exact .inr ⟨step, user, rfl, hwork, rfl⟩

/-- A run of the server is a run of the event loop, for which the worker threads are the rest of
the program. -/
theorem serverLoop_of_reachable (hs : httpServer.Reachable s) :
    (serverLoop handle .empty).Reachable s := by
  refine TransitionSystem.Reachable.invariant (T := httpServer)
    (P := (serverLoop handle .empty).Reachable) .refl (fun s l s' hs hnext => ?_) hs
  -- for the loop, a step of a worker thread is a change of the user state from outside
  rcases next_cases hnext with ⟨l', -, -, hnext⟩ | ⟨step, user, -, -, rfl⟩
  · exact hs.step l' hnext
  · exact hs.step (.user user) rfl

/-- `OnRead` uses a deleted request, or pushes a task, or leaves the request to its connection. -/
theorem read_cases {q : Nat} {data : Bytes} {result : HttpServer × Int}
    (hread : w.read q data = some result) :
    (w.requests q = none ∧ result = ({ w with misused := true }, 0)) ∨
    ∃ r r', w.requests q = some r ∧ r.append data = some r' ∧
      (r'.finished = true ∧ result =
        ({ w with
            requests := Function.update w.requests q (some r')
            queued := w.queued ++ [q]
            pushed := w.pushed ++ [q] },
          -1) ∨
        r'.finished = false ∧ result =
          ({ w with requests := Function.update w.requests q (some r') }, 0)) := by
  unfold read at hread
  split at hread
  · -- the connection points to a request that a worker has deleted
    exact .inl ⟨‹_›, (Option.some.inj hread).symm⟩
  · next r hr =>
    obtain ⟨r', happend, rfl⟩ := Option.map_eq_some_iff.mp hread
    refine .inr ⟨r, r', hr, happend, ?_⟩
    -- only a finished request is handed to the workers
    by_cases hfinished : r'.finished = true
    · exact .inl ⟨hfinished, if_pos hfinished⟩
    · exact .inr ⟨eq_false_of_ne_true hfinished, if_neg hfinished⟩

/-- A worker thread takes a task, uses the request of a task, or deletes it with its task. -/
theorem work_cases {step : WorkerStep} (hwork : w.work step = some w') :
    (∃ q rest, w.queued = q :: rest ∧
      w' = { w with queued := rest, running := w.running ++ [q] }) ∨
    (∃ i : Nat, ∃ q, w.running[i]? = some q ∧
      w' = { w with misused := w.misused || (w.requests q).isNone }) ∨
    ∃ i : Nat, ∃ q, w.running[i]? = some q ∧
      w' = { w with
        running := w.running.eraseIdx i
        requests := Function.update w.requests q none
        misused := w.misused || (w.requests q).isNone } := by
  cases step with
  | take =>
    simp only [work] at hwork
    split at hwork
    · cases hwork
    · next q rest hqueued =>
      obtain ⟨-, hwork⟩ := Option.ite_none_right_eq_some.mp hwork
      exact .inl ⟨q, rest, hqueued, (Option.some.inj hwork).symm⟩
  | run i =>
    obtain ⟨q, hq, rfl⟩ := Option.map_eq_some_iff.mp hwork
    exact .inr (.inl ⟨i, q, hq, rfl⟩)
  | finish i =>
    obtain ⟨q, hq, rfl⟩ := Option.map_eq_some_iff.mp hwork
    exact .inr (.inr ⟨i, q, hq, rfl⟩)

/-- A turn of the loop that calls neither `OnAccept` nor `OnRead`. -/
structure Quiet (s s' : ServerLoop HttpServer Nat) : Prop where
  user : s'.user = s.user
  allocated : s'.allocated = s.allocated
  /-- Clients only go away, or are readable. -/
  heap : ∀ p c', s'.heap p = some c' → ∃ c, s.heap p = some c ∧ c'.fd = c.fd ∧ c'.cli = c.cli
  history : s'.history = s.history ∨
    ∃ now e p rest rem, s.pc = .reading now e p rest rem ∧ s'.history = s.history ++ [.recv p]

namespace Quiet

variable {now : Int} {e : EpollEvent} {p : Nat} {rest : List EpollEvent} {rem : Bool}

/-- The loop goes on. -/
theorem goOn (s : ServerLoop HttpServer Nat) (pc : Pc) : Quiet s { s with pc } :=
  ⟨rfl, rfl, fun _ c hc => ⟨c, hc, rfl, rfl⟩, .inl rfl⟩

/-- The removal of a client. -/
theorem remove (s : ServerLoop HttpServer Nat) (p i : Nat) (c : SocketContext Nat) (pc : Pc) :
    Quiet s { (s.free p i).hangUp handle p c with pc } := by
  refine ⟨?_, ?_, fun p' c' hc' => ?_, .inl ?_⟩
  · show ((s.free p i).hangUp handle p c).user = s.user
    -- `OnClose` and `OnTimeOut` return 0 and change nothing
    unfold ServerLoop.hangUp
    split <;> rfl
  · exact ServerLoop.hangUp_allocated ..
  · -- what is left in the heap was there before the removal
    have hc' : ((s.free p i).hangUp handle p c).heap p' = some c' := hc'
    rw [ServerLoop.hangUp_heap] at hc'
    exact ⟨c', (ServerLoop.heap_of_free hc').2, rfl, rfl⟩
  · exact ServerLoop.hangUp_history ..

/-- The end of the event of a client. -/
theorem finish (hfinish : s.finish handle now e p rest rem = some s') :
    Quiet s s' ∧ s'.history = s.history ∧ s'.pc.removing = none := by
  rcases ServerLoop.finish_cases hfinish with ⟨-, c, i, -, -, rfl⟩ | ⟨-, rfl⟩
  · exact ⟨remove s p i c _, ServerLoop.hangUp_history .., Pc.removing_resume now rest⟩
  · exact ⟨goOn s _, rfl, Pc.removing_resume now rest⟩

/-- One slot of the sweep, after others. -/
theorem sweepSlot {s₀ : ServerLoop HttpServer Nat} {i : Nat}
    (hs : Quiet s₀ s ∧ s.history = s₀.history ∧ s.pc = .wait)
    (hslot : s.sweepSlot handle now i = some s') :
    Quiet s₀ s' ∧ s'.history = s₀.history ∧ s'.pc = .wait := by
  unfold ServerLoop.sweepSlot at hslot
  split at hslot
  · cases hslot
    exact hs
  · next p hp =>
    obtain ⟨c, -, rfl⟩ := Option.map_eq_some_iff.mp hslot
    split
    · -- the deadline of the slot has passed: its client goes, and the earlier slots stay as they
      -- are
      have hremove := remove s p i c .wait
      have hhistory := (ServerLoop.hangUp_history handle (s.free p i) p c).trans hs.2.1
      refine ⟨⟨hremove.user.trans hs.1.user, hremove.allocated.trans hs.1.allocated,
        fun p' c' hc' => ?_, .inl hhistory⟩, hhistory,
        (ServerLoop.hangUp_pc handle (s.free p i) p c).trans hs.2.2⟩
      obtain ⟨c₁, hc₁, hfd₁, hcli₁⟩ := hremove.heap p' c' hc'
      obtain ⟨c₀, hc₀, hfd₀, hcli₀⟩ := hs.1.heap p' c₁ hc₁
      exact ⟨c₀, hc₀, hfd₁.trans hfd₀, hcli₁.trans hcli₀⟩
    · exact hs

end Quiet

/-- A turn of the loop is one of these. -/
theorem turn_cases {l : Label HttpServer} (hl : ∀ user, l ≠ .user user)
    (hnext : s.next handle l = some s') :
    (∃ c : SocketContext Nat, l = .accept c.fd ∧ 0 < c.fd ∧
      c.cli.userptr = some s.user.created ∧ s'.user = (onAccept s.user ⟨c.fd, none⟩).1 ∧
      s'.allocated = s.allocated + 1 ∧
      s'.heap = Function.update s.heap s.allocated (some c) ∧ s'.history = s.history ∧
      s'.pc.removing = none) ∨
    (∃ now e p rest rem data c read, l = .recv (.data data) ∧ s.pc = .reading now e p rest rem ∧
      s.heap p = some c ∧ s.user.onRead c.cli data = some read ∧
        (read.2 < 0 ∧ s' = s.dispatch handle now e p rest c read ∨
          0 ≤ read.2 ∧ s' = s.readMore p read)) ∨
    Quiet s s' ∧ s'.pc.removing = none ∧ ∀ data, l ≠ .recv (.data data) := by
  rcases ServerLoop.next_cases hnext with ⟨now, rfl, hpc, hsweep⟩ | ⟨now, events, rfl, -, -, rfl⟩ |
    ⟨now, e, rest, rfl, -, hevent⟩ | ⟨now, rest, socket, rfl, hpc, ⟨hsocket, rfl⟩ | rfl⟩ |
    ⟨now, e, p, rest, rem, r, hlr, hpc, hrecv⟩ | ⟨user, hluser, -⟩
  · -- the sweep: no slot calls `OnAccept` or `OnRead`
    obtain ⟨hquiet, -, hpc'⟩ := ServerLoop.Slots.foldlM_sweepSlot
      (Q := fun s' => Quiet s s' ∧ s'.history = s.history ∧ s'.pc = .wait)
      (fun hQ hslot => Quiet.sweepSlot hQ hslot) ⟨Quiet.goOn s s.pc, rfl, hpc⟩ hsweep
    exact .inr (.inr ⟨hquiet, by rw [hpc']; rfl, nofun⟩)
  · -- the events of `epoll_wait` are handled one after another
    exact .inr (.inr ⟨Quiet.goOn s _, Pc.removing_resume now events, nofun⟩)
  · refine .inr (.inr ?_)
    rcases ServerLoop.onEvent_cases hevent with ⟨-, rfl⟩ | ⟨p, c, -, hc, -, rfl⟩ |
      ⟨p, -, -, hfinish⟩
    · -- the listening socket
      refine ⟨Quiet.goOn s _, ?_, nofun⟩
      show (if e.epollIn = true then Pc.accepting now rest else .resume now rest).removing = none
      split
      · rfl
      · exact Pc.removing_resume now rest
    · refine ⟨⟨rfl, rfl, fun p' c' hc' => ?_, .inl rfl⟩, rfl, nofun⟩
      -- a client that is readable only has its deadline moved
      by_cases hp : p' = p
      · obtain rfl : ServerLoop.readable handle c now = c' := by simpa [hp] using hc'
        exact ⟨c, hp ▸ hc, rfl, rfl⟩
      · exact ⟨c', by simpa [hp] using hc', rfl, rfl⟩
    · obtain ⟨hquiet, -, hpc'⟩ := Quiet.finish hfinish
      exact ⟨hquiet, hpc', nofun⟩
  · -- the new client gets the next request, unless the table is full
    by_cases hlimit : s.acceptSize + 1 > maxAcceptSize
    · rw [ServerLoop.insert, if_pos hlimit]
      exact .inr (.inr ⟨Quiet.goOn s _, Pc.removing_resume now rest, nofun⟩)
    · rw [ServerLoop.insert, if_neg hlimit]
      refine .inl ⟨ServerLoop.newClient handle now socket _ (some s.user.created), rfl,
        hsocket, rfl, rfl, rfl, rfl, rfl, ?_⟩
      show s.pc.removing = none
      rw [hpc]
      rfl
  · exact .inr (.inr ⟨Quiet.goOn s _, Pc.removing_resume now rest, nofun⟩)
  · -- `recv` returns bytes for `OnRead`, or the event of the client ends
    rcases ServerLoop.onRecv_cases hrecv with ⟨data, c, read, rfl, hc, hread, hs'⟩ |
      ⟨rem', hr, hfinish⟩
    · exact .inr (.inl ⟨now, e, p, rest, rem, data, c, read, hlr, hpc, hc, hread, hs'⟩)
    · obtain ⟨hquiet, hhistory, hpc'⟩ := Quiet.finish hfinish
      refine .inr (.inr ⟨⟨hquiet.user, hquiet.allocated, hquiet.heap,
        .inr ⟨now, e, p, rest, rem, hpc, hhistory⟩⟩, hpc', fun data hdata => ?_⟩)
      obtain rfl : r = .data data := by simpa [hdata] using hlr.symm
      simp at hr
  · exact absurd hluser (hl user)

/-! ## The ledger -/

/-- The clients, the requests and the tasks agree: the request of a client has its number. -/
structure Ledger (s : ServerLoop HttpServer Nat) : Prop where
  created : s.user.created = s.allocated
  userptr : ∀ p c, s.heap p = some c → c.cli.userptr = some p
  pushed_lt : ∀ q ∈ s.user.pushed, q < s.user.created
  fresh : ∀ q, s.user.created ≤ q → s.user.requests q = none
  /-- The tasks have been pushed. -/
  tasks : ∀ q ∈ s.user.tasks, q ∈ s.user.pushed
  /-- A task is pushed for a request that is finished. -/
  finished : ∀ q ∈ s.user.pushed, ∀ r, s.user.requests q = some r → r.finished = true
  /-- The clients whose requests have a task are those whose `fd_` is `-1`. -/
  dispatched : ∀ p c, s.heap p = some c → (c.fd < 0 ↔ p ∈ s.user.pushed)
  removing : ∀ p, s.pc.removing = some p → p ∈ s.user.pushed
  /-- A task is pushed where `OnRead` returns a negative value. -/
  history : ∀ p, p ∈ s.user.pushed ↔ ∃ n < 0, Act.readCb p n ∈ s.history

namespace Ledger

/-- Only the clients whose requests have no task are neither closed nor about to be removed. -/
theorem fd_pos (hs : Ledger s) (hdeadlines : s.Deadlines handle) {p : Nat} {c : SocketContext Nat}
    (hc : s.heap p = some c) : (0 < c.fd ∧ p ∉ s.user.pushed) ∨
      (s.pc.removing = some p ∧ p ∈ s.user.pushed) := by
  -- a client whose `fd_` is not positive is the one that the loop is about to remove
  rcases hdeadlines p c hc with ⟨hfd, -⟩ | ⟨now, e, rest, hpc⟩
  · refine .inl ⟨hfd, fun hp => ?_⟩
    have := (hs.dispatched p c hc).mpr hp
    omega
  · have hremoving : s.pc.removing = some p := by
      rw [hpc]
      rfl
    exact .inr ⟨hremoving, hs.removing p hremoving⟩

/-- A history that grows by calls of `recv` only. -/
theorem history_of_quiet (hquiet : Quiet s s') (p : Nat) (n : Int) :
    Act.readCb p n ∈ s'.history ↔ Act.readCb p n ∈ s.history := by
  rcases hquiet.history with hsame | ⟨_, _, _, _, _, -, hmore⟩
  · rw [hsame]
  · rw [hmore]
    simp

/-- A turn without `OnAccept` and `OnRead`. -/
theorem of_quiet (hs : Ledger s) (hquiet : Quiet s s') (hpc : s'.pc.removing = none) :
    Ledger s' := by
  constructor
  · rw [hquiet.user, hquiet.allocated]
    exact hs.created
  · intro p c' hc'
    -- the connection of a client is the one it had
    obtain ⟨c, hc, -, hcli⟩ := hquiet.heap p c' hc'
    rw [hcli]
    exact hs.userptr p c hc
  · rw [hquiet.user]
    exact hs.pushed_lt
  · rw [hquiet.user]
    exact hs.fresh
  · rw [hquiet.user]
    exact hs.tasks
  · rw [hquiet.user]
    exact hs.finished
  · intro p c' hc'
    -- and so is its `fd_`
    obtain ⟨c, hc, hfd, -⟩ := hquiet.heap p c' hc'
    rw [hfd, hquiet.user]
    exact hs.dispatched p c hc
  · intro p hp
    -- nobody is about to be removed
    rw [hpc] at hp
    cases hp
  · intro p
    simp only [hquiet.user, history_of_quiet hquiet]
    exact hs.history p

/-- A client is accepted. -/
theorem accept (hs : Ledger s) {c : SocketContext Nat} (hfd : 0 < c.fd)
    (hptr : c.cli.userptr = some s.user.created)
    (huser : s'.user = (onAccept s.user ⟨c.fd, none⟩).1)
    (hallocated : s'.allocated = s.allocated + 1)
    (hheap : s'.heap = Function.update s.heap s.allocated (some c))
    (hhistory : s'.history = s.history) (hpc : s'.pc.removing = none) : Ledger s' := by
  have hpushed : s'.user.pushed = s.user.pushed := by rw [huser]; rfl
  have hcreated : s'.user.created = s.user.created + 1 := by rw [huser]; rfl
  have hrequests : s'.user.requests =
      Function.update s.user.requests s.user.created (some .fresh) := by rw [huser]; rfl
  have hnew : s.user.created ∉ s.user.pushed := fun hmem => (hs.pushed_lt _ hmem).false
  constructor
  · -- the new client and the new request have the same number
    rw [hcreated, hallocated, hs.created]
  · intro p c' hc'
    rw [hheap] at hc'
    by_cases hp : p = s.allocated
    · -- the new client
      obtain rfl : c = c' := by simpa [hp] using hc'
      rw [hptr, hp, hs.created]
    · exact hs.userptr p c' (by simpa [hp] using hc')
  · intro q hq
    have := hs.pushed_lt q (hpushed ▸ hq)
    omega
  · intro q hq
    -- numbers above the new one are still free
    have hne : q ≠ s.user.created := by omega
    rw [hrequests, Function.update_of_ne hne]
    exact hs.fresh q (by omega)
  · rw [hpushed, huser]
    exact hs.tasks
  · intro q hq r hr
    -- the new request has no task, so that nothing is known of it
    rw [hpushed] at hq
    have hne : q ≠ s.user.created := by
      rintro rfl
      exact hnew hq
    rw [hrequests, Function.update_of_ne hne] at hr
    exact hs.finished q hq r hr
  · intro p c' hc'
    rw [hheap] at hc'
    rw [hpushed]
    by_cases hp : p = s.allocated
    · obtain rfl : c = c' := by simpa [hp] using hc'
      -- its `fd_` is positive, and its number has not been pushed
      rw [hp, ← hs.created]
      exact ⟨fun hneg => by omega, fun hmem => absurd hmem hnew⟩
    · exact hs.dispatched p c' (by simpa [hp] using hc')
  · intro p hp
    rw [hpc] at hp
    cases hp
  · rw [hpushed, hhistory]
    exact hs.history

/-- `OnRead` leaves the request to its connection, or uses a deleted request. -/
theorem readMore (hs : Ledger s) {p : Nat} {read : HttpServer × Int} (hresult : 0 ≤ read.2)
    (hcreated : read.1.created = s.user.created) (hpushed : read.1.pushed = s.user.pushed)
    (htasks : read.1.tasks = s.user.tasks)
    (hfresh : ∀ q, s.user.created ≤ q → read.1.requests q = none)
    (hfinished : ∀ q ∈ s.user.pushed, ∀ r, read.1.requests q = some r → r.finished = true) :
    Ledger (s.readMore p read) where
  created := hcreated.trans hs.created
  userptr := hs.userptr
  pushed_lt := by
    show ∀ q ∈ read.1.pushed, q < read.1.created
    rw [hpushed, hcreated]
    exact hs.pushed_lt
  fresh := by
    show ∀ q, read.1.created ≤ q → _
    rw [hcreated]
    exact hfresh
  tasks := by
    show ∀ q ∈ read.1.tasks, q ∈ read.1.pushed
    rw [htasks, hpushed]
    exact hs.tasks
  finished := by
    show ∀ q ∈ read.1.pushed, _
    rw [hpushed]
    exact hfinished
  dispatched := by
    show ∀ p c, s.heap p = some c → (c.fd < 0 ↔ p ∈ read.1.pushed)
    rw [hpushed]
    exact hs.dispatched
  removing := by
    show ∀ p, s.pc.removing = some p → p ∈ read.1.pushed
    rw [hpushed]
    exact hs.removing
  history := by
    intro p'
    show p' ∈ read.1.pushed ↔ ∃ n < 0, Act.readCb p' n ∈ s.history ++ [.recv p, .readCb p read.2]
    -- the result is not negative, so that the call does not count as a dispatch
    rw [hpushed, hs.history p']
    refine ⟨fun ⟨n, hn, hmem⟩ => ⟨n, hn, List.mem_append_left _ hmem⟩, fun ⟨n, hn, hmem⟩ => ?_⟩
    refine ⟨n, hn, ?_⟩
    rcases List.mem_append.mp hmem with hmem | hmem
    · exact hmem
    · obtain ⟨-, rfl⟩ : p' = p ∧ n = read.2 := by simpa using hmem
      omega

/-- `OnRead` pushes a task. -/
theorem dispatch (hs : Ledger s) {now : Int} {e : EpollEvent} {p : Nat} {rest : List EpollEvent}
    {c : SocketContext Nat} {r : HttpRequest} (hc : s.heap p = some c)
    (hr : (s.user.requests p).isSome) (hfinished : r.finished = true) :
    Ledger (s.dispatch handle now e p rest c
      ({ s.user with
          requests := Function.update s.user.requests p (some r)
          queued := s.user.queued ++ [p]
          pushed := s.user.pushed ++ [p] }, -1)) := by
  have hlt : p < s.user.created := by
    -- a request that exists has a number
    by_contra hge
    simp [hs.fresh p (by omega)] at hr
  constructor
  · exact hs.created
  · intro p' c' hc'
    -- the client keeps its connection
    by_cases hp : p' = p
    · subst hp
      obtain rfl : ServerLoop.dispatched handle c now = c' := by
        simpa [ServerLoop.dispatch] using hc'
      exact hs.userptr p' c hc
    · exact hs.userptr p' c' (by simpa [ServerLoop.dispatch, hp] using hc')
  · intro q hq
    rcases List.mem_append.mp hq with hq | hq
    · exact hs.pushed_lt q hq
    · rwa [List.mem_singleton.mp hq]
  · intro q hq
    have hne : q ≠ p := by
      rintro rfl
      exact absurd hlt (not_lt.mpr hq)
    exact (Function.update_of_ne hne ..).trans (hs.fresh q hq)
  · intro q hq
    -- the tasks are the old ones and the new one
    have hq : q = p ∨ q ∈ s.user.tasks := by
      have : q ∈ (s.user.queued ++ [p]) ++ s.user.running := hq
      simp only [List.mem_append, List.mem_singleton] at this
      rw [HttpServer.tasks, List.mem_append]
      tauto
    rcases hq with rfl | hq
    · exact List.mem_append_right _ (List.mem_singleton_self q)
    · exact List.mem_append_left _ (hs.tasks q hq)
  · intro q hq r' hr'
    -- the request that is pushed is finished, the others are as before
    by_cases hne : q = p
    · obtain rfl : r = r' := by simpa [ServerLoop.dispatch, hne] using hr'
      exact hfinished
    · have hq : q ∈ s.user.pushed := by simpa [ServerLoop.dispatch, hne] using hq
      exact hs.finished q hq r' (by simpa [ServerLoop.dispatch, hne] using hr')
  · intro p' c' hc'
    by_cases hp : p' = p
    · subst hp
      obtain rfl : ServerLoop.dispatched handle c now = c' := by
        simpa [ServerLoop.dispatch] using hc'
      -- the loop sets the `fd_` of the client to -1
      simp [ServerLoop.dispatch, ServerLoop.dispatched]
    · have hc' : s.heap p' = some c' := by simpa [ServerLoop.dispatch, hp] using hc'
      rw [hs.dispatched p' c' hc']
      simp [ServerLoop.dispatch, hp]
  · intro p' hp'
    -- it is this client that is about to be removed
    obtain rfl : p = p' := Option.some.inj hp'
    exact List.mem_append_right _ (List.mem_singleton_self p)
  · intro p'
    -- one push for one negative result
    show p' ∈ s.user.pushed ++ [p] ↔
      ∃ n < 0, Act.readCb p' n ∈ s.history ++ [.recv p, .readCb p (-1)]
    rw [List.mem_append, List.mem_singleton, hs.history p']
    constructor
    · rintro (⟨n, hn, hmem⟩ | rfl)
      · exact ⟨n, hn, List.mem_append_left _ hmem⟩
      · exact ⟨-1, by decide, by simp⟩
    · rintro ⟨n, hn, hmem⟩
      rcases List.mem_append.mp hmem with hmem | hmem
      · exact .inl ⟨n, hn, hmem⟩
      · obtain ⟨rfl, -⟩ : p' = p ∧ n = -1 := by simpa using hmem
        exact .inr rfl

/-- `OnRead`. -/
theorem read (hs : Ledger s) {now : Int} {e : EpollEvent} {p : Nat} {rest : List EpollEvent}
    {c : SocketContext Nat} {data : Bytes} {result : HttpServer × Int} (hc : s.heap p = some c)
    (hread : s.user.onRead c.cli data = some result)
    (hs' : result.2 < 0 ∧ s' = s.dispatch handle now e p rest c result ∨
      0 ≤ result.2 ∧ s' = s.readMore p result) : Ledger s' := by
  have hread : s.user.read p data = some result := by
    rwa [onRead, hs.userptr p c hc] at hread
  rcases read_cases hread with ⟨-, rfl⟩ | ⟨r, r', hr, happend, ⟨hfinished, rfl⟩ | ⟨hmore, rfl⟩⟩
  · obtain ⟨-, rfl⟩ := hs'.resolve_left fun h => absurd h.1 (by simp)
    exact hs.readMore le_rfl rfl rfl rfl hs.fresh hs.finished
  · obtain ⟨-, rfl⟩ := hs'.resolve_right fun h => absurd h.1 (by simp)
    exact hs.dispatch hc (by rw [hr]; rfl) hfinished
  · obtain ⟨-, rfl⟩ := hs'.resolve_left fun h => absurd h.1 (by simp)
    refine hs.readMore le_rfl rfl rfl rfl (fun q hq => ?_) fun q hq r₁ hr₁ => ?_
    · have hne : q ≠ p := by
        rintro rfl
        simp [hs.fresh q hq] at hr
      exact (Function.update_of_ne hne ..).trans (hs.fresh q hq)
    · by_cases hne : q = p
      · -- a finished request would have stayed so
        subst hne
        have := HttpRequest.finished_append (hs.finished q hq r hr) happend
        simp [hmore] at this
      · exact hs.finished q hq r₁ (by simpa [hne] using hr₁)

/-- A step of a worker thread. -/
theorem work (hs : Ledger s) {step : WorkerStep} {user : HttpServer}
    (hwork : s.user.work step = some user) : Ledger { s with user } := by
  rcases work_cases hwork with ⟨q, rest, hqueued, rfl⟩ | ⟨i, q, -, rfl⟩ | ⟨i, q, -, rfl⟩
  · -- a task moves from the queue to a thread
    refine { hs with tasks := fun q' hq' => hs.tasks q' ?_ }
    have hq' : q' ∈ rest ++ (s.user.running ++ [q]) := hq'
    rw [HttpServer.tasks, hqueued]
    simp only [List.mem_append, List.mem_cons, List.not_mem_nil, or_false] at hq' ⊢
    tauto
  · -- a thread looks at a request
    exact { hs with }
  · -- a request goes with its task
    refine { hs with fresh := ?_, tasks := ?_, finished := ?_ }
    · intro q' hq'
      show Function.update s.user.requests q none q' = none
      by_cases hne : q' = q
      · simp [hne]
      · simpa [hne] using hs.fresh q' hq'
    · intro q' hq'
      apply hs.tasks q'
      rcases List.mem_append.mp hq' with hq' | hq'
      · exact List.mem_append_left _ hq'
      · exact List.mem_append_right _ (List.mem_of_mem_eraseIdx hq')
    · intro q' hq' r hr
      by_cases hne : q' = q
      · simp [hne] at hr
      · exact hs.finished q' hq' r (by simpa [hne] using hr)

end Ledger

/-- The ledger is kept in every reachable state. -/
theorem ledger_of_reachable (hs : httpServer.Reachable s) : Ledger s := by
  refine hs.invariant (P := Ledger) ?_ fun s l s' hs hnext => ?_
  · -- there is nothing at the start
    constructor <;> simp [httpServer, ServerLoop.start, empty, tasks, Pc.removing]
  · rcases next_cases hnext with ⟨l', -, hl', hnext⟩ | ⟨step, user, -, hwork, rfl⟩
    · rcases turn_cases hl' hnext with ⟨c, -, hfd, hptr, huser, hallocated, hheap, hhistory, hpc⟩ |
        ⟨now, e, p, rest, rem, data, c, read, -, -, hc, hread, hs'⟩ | ⟨hquiet, hpc, -⟩
      · exact hs.accept hfd hptr huser hallocated hheap hhistory hpc
      · exact hs.read hc hread hs'
      · exact hs.of_quiet hquiet hpc
    · exact hs.work hwork

end HttpServer

end MosqCluster.Server
