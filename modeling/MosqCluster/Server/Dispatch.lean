import MosqCluster.Server.HttpServer

/-!
# Dispatch

When `OnRead` has pushed a task and returned a negative value, the event loop marks the client for
removal and goes on to `recv`. What arrives by then is read into the request of the task, which is
finished already, so that `OnRead` pushes another one.

## Main definitions

* `ServerLoop.DispatchedOnce`: a request is read no more when it has been dispatched;
* `ServerLoop.completes` and `ServerLoop.readsOn`: steps in which a request is completed, and in
  which data arrives for one that has been dispatched.

## Main results

* `dispatchedOnce_of_reachable`: the runs in which the loop does what it should.
-/

namespace MosqCluster.Server

open Http HttpServer

namespace ServerLoop

variable {s s' : ServerLoop HttpServer Nat} {l : HttpLabel}

/-- When `read_cb` has returned a negative value for a client there is no `recv` on its socket, and
no call of `read_cb`, and a request is dispatched once. -/
structure DispatchedOnce (s : ServerLoop HttpServer Nat) : Prop where
  last : s.history.Pairwise fun a b =>
    ∀ p, ∀ n < 0, a = .readCb p n → b ≠ .recv p ∧ ∀ m, b ≠ .readCb p m
  once : s.user.pushed.Nodup

/-- There may be a `recv`, but no call of `read_cb`. -/
structure ReadOnce (s : ServerLoop HttpServer Nat) : Prop where
  last : s.history.Pairwise fun a b => ∀ p, ∀ n < 0, a = .readCb p n → ∀ m, b ≠ .readCb p m
  once : s.user.pushed.Nodup

/-- The request of a client. -/
def request (s : ServerLoop HttpServer Nat) (p : Nat) : Option HttpRequest :=
  ((s.heap p).bind fun c => c.cli.userptr).bind s.user.requests

/-- In this step, `recv` returns bytes after which the request of the connection is finished. -/
def completes (s : ServerLoop HttpServer Nat) : HttpLabel → Bool
  | .loop (.recv (.data data)) =>
    match s.pc with
    | .reading _ _ p _ _ => ((s.request p).bind fun r => r.append data).any (·.finished)
    | _ => false
  | _ => false

/-- In this step, `recv` returns bytes for a connection whose request has been dispatched. -/
def readsOn (s : ServerLoop HttpServer Nat) : HttpLabel → Bool
  | .loop (.recv (.data _)) => s.pc.removing.isSome
  | _ => false

/-! ## What a step does -/

/-- A step either gives data to `OnRead`, which pushes a task exactly if the request is completed,
or pushes no task. -/
theorem step_cases (hs : Ledger s) (hnext : httpServer.next s l = some s') :
    (∃ now e p rest rem data result, l = .loop (.recv (.data data)) ∧
      s.pc = .reading now e p rest rem ∧ (s.heap p).isSome ∧
      s'.history = s.history ++ [.recv p, .readCb p result] ∧
      (s.completes l = true ∧ result = -1 ∧ s'.user.pushed = s.user.pushed ++ [p] ∧
          s'.pc.removing = some p ∨
        s.completes l = false ∧ result = 0 ∧ s'.user.pushed = s.user.pushed)) ∨
    s.completes l = false ∧ s'.user.pushed = s.user.pushed ∧
      (s'.history = s.history ∨ ∃ p, s'.history = s.history ++ [.recv p]) := by
  rcases HttpServer.next_cases hnext with ⟨l', rfl, hl', hnext⟩ | ⟨step, user, rfl, hwork, rfl⟩
  · rcases turn_cases hl' hnext with ⟨c, rfl, -, -, huser, -, -, hhistory, -⟩ |
      ⟨now, e, p, rest, rem, data, c, read, rfl, hpc, hc, hread, hs'⟩ | ⟨hquiet, -, hl⟩
    · -- a new client
      exact .inr ⟨rfl, by rw [huser]; rfl, .inl hhistory⟩
    · have hptr := hs.userptr p c hc
      -- data for the request of the client `p`
      have hrequest : s.request p = s.user.requests p := by simp [request, hc, hptr]
      have hread : s.user.read p data = some read := by rwa [onRead, hptr] at hread
      refine .inl ⟨now, e, p, rest, rem, data, read.2, rfl, hpc, by rw [hc]; rfl, ?_⟩
      rcases read_cases hread with ⟨hr, rfl⟩ |
        ⟨r, r', hr, happend, ⟨hfinished, rfl⟩ | ⟨hmore, rfl⟩⟩
      · -- the request has been deleted, and is not completed
        obtain ⟨-, rfl⟩ := hs'.resolve_left fun h => absurd h.1 (by simp)
        exact ⟨rfl, .inr ⟨by simp [completes, hpc, hrequest, hr], rfl, rfl⟩⟩
      · -- the data complete it
        obtain ⟨-, rfl⟩ := hs'.resolve_right fun h => absurd h.1 (by simp)
        refine ⟨rfl, .inl ⟨?_, rfl, rfl, rfl⟩⟩
        simp [completes, hpc, hrequest, hr, happend, hfinished]
      · -- they do not
        obtain ⟨-, rfl⟩ := hs'.resolve_left fun h => absurd h.1 (by simp)
        exact ⟨rfl, .inr ⟨by simp [completes, hpc, hrequest, hr, happend, hmore], rfl, rfl⟩⟩
    · -- no data are read, so that nothing is completed
      refine .inr ⟨?_, by rw [hquiet.user], ?_⟩
      · unfold completes
        split
        · next data heq =>
          cases heq
          exact absurd rfl (hl data)
        · rfl
      · rcases hquiet.history with hsame | ⟨_, _, p, _, _, -, hmore⟩
        · exact .inl hsame
        · exact .inr ⟨p, hmore⟩
  · -- a worker thread pushes nothing
    refine .inr ⟨rfl, ?_, .inl rfl⟩
    rcases work_cases hwork with ⟨q, rest, -, rfl⟩ | ⟨i, q, -, rfl⟩ | ⟨i, q, -, rfl⟩ <;> rfl

/-! ## Runs that complete no request -/

/-- No request has been dispatched. -/
structure Undispatched (s : ServerLoop HttpServer Nat) : Prop where
  history : ∀ p, ∀ n < 0, Act.readCb p n ∉ s.history
  pushed : s.user.pushed = []

namespace Undispatched

/-- Where nothing has been dispatched, nothing has been dispatched twice. -/
theorem dispatchedOnce (hs : s.Undispatched) : s.DispatchedOnce where
  last := by
    refine List.pairwise_of_forall_mem_list fun a ha b hb p n hn heq => ?_
    exact absurd (heq ▸ ha) (hs.history p n hn)
  once := by
    rw [hs.pushed]
    exact List.nodup_nil

/-- A step that completes no request dispatches none. -/
theorem step (hs : s.Undispatched) (hledger : Ledger s) (hopen : s.completes l = false)
    (hnext : httpServer.next s l = some s') : s'.Undispatched := by
  rcases step_cases hledger hnext with
    ⟨now, e, p, rest, rem, data, result, -, -, -, hhistory, ⟨hcompletes, -⟩ | ⟨-, rfl, hpushed⟩⟩ |
    ⟨-, hpushed, hhistory⟩
  · -- a dispatch completes a request
    rw [hopen] at hcompletes
    cases hcompletes
  · -- `read_cb` returns 0
    refine ⟨fun p' n hn hmem => ?_, hpushed.trans hs.pushed⟩
    rw [hhistory] at hmem
    rcases List.mem_append.mp hmem with hmem | hmem
    · exact hs.history p' n hn hmem
    · obtain ⟨-, rfl⟩ : p' = p ∧ n = 0 := by simpa using hmem
      exact absurd hn (lt_irrefl _)
  · refine ⟨fun p n hn hmem => hs.history p n hn ?_, hpushed.trans hs.pushed⟩
    rcases hhistory with hsame | ⟨p', hmore⟩
    · rwa [hsame] at hmem
    · simpa [hmore] using hmem

end Undispatched

/-! ## Runs that read nothing after a dispatch -/

/-- A step in which nothing arrives for a dispatched request reads no such request. -/
theorem ReadOnce.step (hs : s.ReadOnce) (hledger : Ledger s) (hdeadlines : s.Deadlines handle)
    (hquiet : s.readsOn l = false) (hnext : httpServer.next s l = some s') : s'.ReadOnce := by
  rcases step_cases hledger hnext with
    ⟨now, e, p, rest, rem, data, result, rfl, hpc, hp, hhistory, hpushed⟩ |
    ⟨-, hpushed, hhistory⟩
  · -- the client is not about to be removed, so that its request has no task
    have hnew : p ∉ s.user.pushed := by
      obtain ⟨c, hc⟩ := Option.isSome_iff_exists.mp hp
      rcases hledger.fd_pos hdeadlines hc with ⟨-, hnew⟩ | ⟨hremoving, -⟩
      · exact hnew
      · simp [readsOn, hremoving] at hquiet
    constructor
    · -- a call of `read_cb` for this client has not returned a negative value before
      rw [hhistory, List.pairwise_append]
      refine ⟨hs.last, by simp, fun a ha b hb p' n hn heq m hbm => ?_⟩
      obtain ⟨rfl, -⟩ : p' = p ∧ m = result := by
        rw [hbm] at hb
        simpa using hb
      exact hnew ((hledger.history p').mpr ⟨n, hn, heq ▸ ha⟩)
    · rcases hpushed with ⟨-, -, hpushed, -⟩ | ⟨-, -, hpushed⟩
      · rw [hpushed]
        -- the task is the first one of its request
        refine List.nodup_append.mpr ⟨hs.once, List.nodup_singleton p, fun q hq q' hq' => ?_⟩
        rw [List.mem_singleton.mp hq']
        rintro rfl
        exact hnew hq
      · rw [hpushed]
        exact hs.once
  · refine ⟨?_, hpushed ▸ hs.once⟩
    rcases hhistory with hsame | ⟨p, hmore⟩
    · rw [hsame]
      exact hs.last
    · -- a `recv` without data is no call of `read_cb`
      rw [hmore, List.pairwise_append]
      refine ⟨hs.last, by simp, fun a ha b hb p' n hn heq m hbm => ?_⟩
      rw [hbm] at hb
      simp at hb

/-! ## The turn after a dispatch -/

/-- A call of `recv` is recorded. -/
theorem history_recv {now : Int} {e : EpollEvent} {p : Nat} {rest : List EpollEvent} {rem : Bool}
    {r : Recv} (hpc : s.pc = .reading now e p rest rem)
    (hnext : httpServer.next s (.loop (.recv r)) = some s') :
    ∃ tail, s'.history = s.history ++ .recv p :: tail := by
  have hrecv : s.onRecv handle now e p rest rem r = some s' := by
    have : s.next handle (.recv r) = some s' := hnext
    simpa only [ServerLoop.next, hpc] using this
  -- with data, `read_cb` follows; without, the event of the client ends
  rcases onRecv_cases hrecv with ⟨data, c, read, -, -, -, ⟨-, rfl⟩ | ⟨-, rfl⟩⟩ | ⟨rem', -, hfinish⟩
  · exact ⟨_, rfl⟩
  · exact ⟨_, rfl⟩
  · exact ⟨[], (Quiet.finish hfinish).2.1⟩

/-- The client whose request has been dispatched is the one that the loop reads from. -/
theorem reading_of_removing {p : Nat} (hp : s.pc.removing = some p) :
    ∃ now e rest, s.pc = .reading now e p rest true := by
  cases hpc : s.pc with
  | reading now e p' rest rem =>
    cases rem with
    | true =>
      rw [hpc] at hp
      obtain rfl := Option.some.inj hp
      exact ⟨now, e, rest, rfl⟩
    | false => simp [hpc, Pc.removing] at hp
  | _ => simp [hpc, Pc.removing] at hp

/-- The turn after a dispatch is a call of `recv` on the socket of the same client. -/
theorem not_dispatchedOnce_of_removing {p : Nat} {r : Recv} (hs : Ledger s)
    (hp : s.pc.removing = some p) (hnext : httpServer.next s (.loop (.recv r)) = some s') :
    ¬ s'.DispatchedOnce := by
  intro hdispatched
  -- the negative result is in the history, and the `recv` comes after it
  obtain ⟨n, hn, hmem⟩ := (hs.history p).mp (hs.removing p hp)
  obtain ⟨now, e, rest, hpc⟩ := reading_of_removing hp
  obtain ⟨tail, hhistory⟩ := history_recv hpc hnext
  have hlast := hdispatched.last
  rw [hhistory, List.pairwise_append] at hlast
  exact (hlast.2.2 _ hmem (.recv p) (by simp) p n hn rfl).1 rfl

/-- A step that completes a request leaves its client about to be removed. -/
theorem removing_of_completes (hs : Ledger s) (hcompletes : s.completes l = true)
    (hnext : httpServer.next s l = some s') : s'.pc.removing.isSome := by
  rcases step_cases hs hnext with
    ⟨_, _, p, _, _, _, _, -, -, -, -, ⟨-, -, -, hp⟩ | ⟨hopen, -⟩⟩ | ⟨hopen, -⟩
  · rw [hp]
    rfl
  · rw [hcompletes] at hopen
    cases hopen
  · rw [hcompletes] at hopen
    cases hopen

end ServerLoop

/-! ## Runs -/

/-- What holds of the dispatches in a run. Where no request is completed, a request is read no more
when it has been dispatched; when one has been completed, the next turn of the loop calls `recv` for
it again. Where nothing arrives for a request that has been dispatched, it is dispatched once. -/
theorem dispatchedOnce_of_reachable {s : ServerLoop HttpServer Nat} (hs : httpServer.Reachable s) :
    ((httpServer.restrict fun s l => s.completes l = false).Reachable s → s.DispatchedOnce) ∧
      ((httpServer.restrict fun s l => s.readsOn l = false).Reachable s → s.ReadOnce) ∧
      (∀ l s', s.completes l = true → httpServer.next s l = some s' → s'.pc.removing.isSome) ∧
      (s.pc.removing.isSome → ∀ r s', httpServer.next s (.loop (.recv r)) = some s' →
        ¬ s'.DispatchedOnce) := by
  have hledger := ledger_of_reachable hs
  refine ⟨fun hopen => ?_, fun hquiet => ?_, fun l s' => ?_, fun hremoving r s' hnext => ?_⟩
  · -- nothing is dispatched at all
    have hundispatched : httpServer.Reachable s ∧ s.Undispatched := by
      refine hopen.invariant_restrict (P := fun s => httpServer.Reachable s ∧ s.Undispatched)
        ⟨.refl, fun p n hn => by simp [httpServer, ServerLoop.start], rfl⟩ ?_
      rintro s l s' ⟨hs, hundispatched⟩ hok hnext
      exact ⟨hs.step l hnext, hundispatched.step (ledger_of_reachable hs) hok hnext⟩
    exact hundispatched.2.dispatchedOnce
  · -- what is dispatched is not read again
    have honce : httpServer.Reachable s ∧ s.ReadOnce := by
      refine hquiet.invariant_restrict (P := fun s => httpServer.Reachable s ∧ s.ReadOnce)
        ⟨.refl, List.Pairwise.nil, List.nodup_nil⟩ ?_
      rintro s l s' ⟨hs, honce⟩ hok hnext
      exact ⟨hs.step l hnext, honce.step (ledger_of_reachable hs)
        (ServerLoop.deadlines_of_reachable (serverLoop_of_reachable hs)) hok hnext⟩
    exact honce.2
  · exact ServerLoop.removing_of_completes hledger
  · obtain ⟨p, hp⟩ := Option.isSome_iff_exists.mp hremoving
    exact ServerLoop.not_dispatchedOnce_of_removing hledger hp hnext

/-- A connection is accepted and becomes readable. -/
def connected : List HttpLabel :=
  [.loop (.wait 100 (some [⟨.listenSocket, true, false, false⟩])), .loop .event,
    .loop (.accept 7), .loop (.accept (-1)),
    .loop (.wait 101 (some [⟨.client 0, true, false, false⟩])), .loop .event]

/-- A request that is read in one piece. -/
def getRequest : Bytes := bytes "GET / HTTP/1.1\r\n\r\n"

/-- A connection whose request is read in one piece, and then nothing, is dispatched once. -/
theorem dispatchedOnce_of_reachable_getRequest :
    ∃ s, httpServer.exec httpServer.init (connected ++ [.loop (.recv (.data getRequest))]) =
      some s ∧ s.user.pushed = [0] ∧ s.ReadOnce := by
  obtain ⟨s, hexec, hpushed, hquiet⟩ : ∃ s, httpServer.exec httpServer.init
      (connected ++ [.loop (.recv (.data getRequest))]) = some s ∧ s.user.pushed = [0] ∧
        (httpServer.restrict fun s l => s.readsOn l = false).exec httpServer.init
          (connected ++ [.loop (.recv (.data getRequest))]) = some s := ⟨_, rfl, rfl, rfl⟩
  exact ⟨s, hexec, hpushed, (dispatchedOnce_of_reachable
    (TransitionSystem.reachable_of_exec hexec)).2.1 (TransitionSystem.reachable_of_exec hquiet)⟩

/-- When more bytes arrive, the same request is dispatched again. -/
theorem not_dispatchedOnce :
    ¬ ∀ s : ServerLoop HttpServer Nat, httpServer.Reachable s → s.DispatchedOnce := by
  intro hdispatched
  obtain ⟨s, hexec, hpushed⟩ : ∃ s, httpServer.exec httpServer.init
      (connected ++ [.loop (.recv (.data getRequest)), .loop (.recv (.data getRequest))]) = some s ∧
        s.user.pushed = [0, 0] := ⟨_, rfl, rfl⟩
  have honce := (hdispatched s (TransitionSystem.reachable_of_exec hexec)).once
  rw [hpushed] at honce
  exact absurd honce (by decide)

end MosqCluster.Server
