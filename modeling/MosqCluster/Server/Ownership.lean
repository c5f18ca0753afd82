import MosqCluster.Server.Dispatch

/-!
# The owners of requests

A request belongs to its connection until it is finished, and then to the task that `OnRead` pushes,
which deletes it. `OnClose` and `OnTimeOut` do nothing, so that a connection that goes away before
its request is finished leaves it without an owner, and `OnRead` pushes another task when more data
arrives for a request that belongs to a task.

## Main definitions

* `ServerLoop.Owned`: every request has one owner, and none is used after it has been deleted;
* `ServerLoop.lost`: the clients whose requests lose their owner in a step.

## Main results

* `owned_of_reachable`: requests are owned as long as no connection goes away too early and nothing
  arrives too late, and not any more when one of the two happens.
-/

namespace MosqCluster.Server

open Http HttpServer

/-- The event ends with the removal of the client, although `OnRead` has not asked for it. -/
def Recv.removes (e : EpollEvent) : Recv → Bool
  | .data _ => false
  | .closed | .failed => true
  | .again => e.epollHup || e.epollRdhup

namespace ServerLoop

variable {s s' : ServerLoop HttpServer Nat} {l : HttpLabel}

/-- The slot `i` holds a client of this request, for which `read_cb` has not returned a negative
value. -/
def SlotOwns (s : ServerLoop HttpServer Nat) (i q : Nat) : Prop :=
  ∃ p c, s.acceptQueue i = some p ∧ s.heap p = some c ∧ c.cli.userptr = some q ∧
    ∀ n < 0, Act.readCb p n ∉ s.history

/-- Every request that has not been deleted belongs to one slot or to one task, and none has been
used or deleted after it had been deleted. -/
structure Owned (s : ServerLoop HttpServer Nat) : Prop where
  owner : ∀ q, (s.user.requests q).isSome →
    (∃! i, s.SlotOwns i q) ∧ s.user.tasks.count q = 0 ∨
      (¬ ∃ i, s.SlotOwns i q) ∧ s.user.tasks.count q = 1
  sound : s.user.misused = false

/-- The clients that a step removes before their requests are finished: they hang up, `recv` fails
or returns the end of the data, or they are past their deadlines in a sweep. -/
def lost (s : ServerLoop HttpServer Nat) : HttpLabel → List Nat
  | .loop .event =>
    match s.pc with
    | .event _ ⟨.client p, false, hup, rdhup⟩ _ => if hup || rdhup then [p] else []
    | _ => []
  | .loop (.recv r) =>
    match s.pc with
    | .reading _ e p _ false => if r.removes e then [p] else []
    | _ => []
  | .loop (.wait now none) =>
    match s.pc with
    | .wait => ((List.range s.acceptSize.toNat).filterMap s.acceptQueue).filter fun p =>
        (s.heap p).any fun c => decide (Expired now c)
    | _ => []
  | _ => []

/-! ## Which clients a step removes -/

section Lost

variable {now : Int} {e : EpollEvent} {p p' : Nat} {rest : List EpollEvent} {rem : Bool}

/-- The end of the event of a client removes no other client. -/
theorem isSome_heap_finish (hp : (s.heap p').isSome)
    (hfinish : s.finish handle now e p rest rem = some s') :
    (s'.heap p').isSome ↔ ¬ (p' = p ∧ (e.epollHup || e.epollRdhup || rem) = true) := by
  rcases finish_cases hfinish with ⟨hremove, c, i, -, -, rfl⟩ | ⟨hkeep, rfl⟩
  · -- the client of the event is freed, and `OnClose` leaves the heap alone
    show (((s.free p i).hangUp handle p c).heap p').isSome ↔ _
    rw [hangUp_heap, hremove]
    by_cases hpp : p' = p
    · simp [ServerLoop.free, hpp]
    · simpa [ServerLoop.free, hpp] using hp
  · simp [hp, hkeep]

/-- A sweep removes the clients that it finds past their deadlines. -/
theorem isSome_heap_sweep (hs : s.Slots) (hpc : s.pc = .wait) (hp : (s.heap p).isSome)
    (hsweep : s.sweep handle now = some s') :
    (s'.heap p).isSome ↔ p ∉ s.lost (.loop (.wait now none)) := by
  obtain ⟨c, hc⟩ := Option.isSome_iff_exists.mp hp
  obtain ⟨i, -, hindex, hi⟩ := hs.slot p c hc
  -- the sweep looks at the slots below `accept_size_`
  have hlost : p ∈ s.lost (.loop (.wait now none)) ↔ i < s.acceptSize ∧ Expired now c := by
    -- the client has one slot, so that it is found there or not at all
    have hrange : (∃ j : Nat, j < s.acceptSize ∧ s.acceptQueue j = some p) ↔
        i < s.acceptSize := by
      constructor
      · rintro ⟨j, hj, hjp⟩
        obtain ⟨c', hc', hindex'⟩ := hs.entry j p hjp
        obtain rfl := Option.some.inj (hc.symm.trans hc')
        obtain rfl := Option.some.inj (hindex.symm.trans hindex')
        exact hj
      · exact fun hlt => ⟨i, hlt, hi⟩
    simp [lost, hpc, hc, hrange]
  have hspec := sweep_spec hs hsweep i p c
  rw [hlost, not_and]
  constructor
  · intro hp' hlt
    obtain ⟨c', hc'⟩ := Option.isSome_iff_exists.mp hp'
    -- the client has neither changed nor moved
    obtain ⟨hslots', hsame⟩ : s'.Slots ∧ (s'.heap p = some c' → s.heap p = some c') := by
      refine Slots.foldlM_sweepSlot
        (Q := fun s' => s'.Slots ∧ (s'.heap p = some c' → s.heap p = some c'))
        (fun hQ hslot => ⟨hQ.1.sweepSlot hslot, fun hc => hQ.2 (heap_sweepSlot hslot hc)⟩)
        ⟨hs, id⟩ hsweep
    obtain rfl := Option.some.inj (hc.symm.trans (hsame hc'))
    obtain ⟨-, hi'⟩ := hslots'.queue_of_index hc' hindex
    exact (hspec.mp ⟨hi', hc'⟩).2 hlt
  · intro hopen
    rw [(hspec.mpr ⟨⟨hi, hc⟩, hopen⟩).2]
    rfl

/-- Of the clients whose requests have no task, a step removes those that are lost. -/
theorem isSome_heap_next (hs : httpServer.Reachable s) (hnext : httpServer.next s l = some s')
    (hp : (s.heap p).isSome) (hnew : p ∉ s.user.pushed) :
    (s'.heap p).isSome ↔ p ∉ s.lost l := by
  have hslots := slots_of_reachable (serverLoop_of_reachable hs)
  have hledger := ledger_of_reachable hs
  rcases HttpServer.next_cases hnext with ⟨l', rfl, hl', hnext⟩ | ⟨step, user, rfl, -, rfl⟩
  · rcases ServerLoop.next_cases hnext with ⟨now, rfl, hpc, hsweep⟩ |
      ⟨now, events, rfl, -, -, rfl⟩ | ⟨now, e, rest, rfl, hpc, hevent⟩ |
      ⟨now, rest, socket, rfl, -, ⟨-, rfl⟩ | rfl⟩ | ⟨now, e, p', rest, rem, r, rfl, hpc, hrecv⟩ |
      ⟨user, rfl, -⟩
    · -- a sweep
      exact isSome_heap_sweep hslots hpc hp hsweep
    · simpa [lost] using hp
    · -- an event: of the listening socket, of a client that is readable, or of one that hangs up
      obtain ⟨source, epollIn, hup, rdhup⟩ := e
      rcases onEvent_cases hevent with ⟨rfl, rfl⟩ | ⟨p', c, rfl, hc, rfl, rfl⟩ |
        ⟨p', rfl, rfl, hfinish⟩
      · simpa [lost, hpc] using hp
      · by_cases hpp : p = p'
        · simp [lost, hpc, hpp]
        · simpa [lost, hpc, hpp] using hp
      · rw [isSome_heap_finish hp hfinish]
        cases hup <;> cases rdhup <;> simp [lost, hpc]
    · -- an accepted client takes a number that nobody has
      unfold insert
      split
      · simpa [lost] using hp
      · by_cases hpp : p = s.allocated
        · simp [lost, hpp]
        · simpa [lost, hpp] using hp
    · simpa [lost] using hp
    · -- a `recv`: data leave the client where it is
      rcases onRecv_cases hrecv with ⟨data, c, read, rfl, hc, -, ⟨-, rfl⟩ | ⟨-, rfl⟩⟩ |
        ⟨rem', hr, hfinish⟩
      · by_cases hpp : p = p'
        · cases rem <;> simp [lost, hpc, Recv.removes, dispatch, hpp]
        · cases rem <;> simpa [lost, hpc, Recv.removes, dispatch, hpp] using hp
      · cases rem <;> simpa [lost, hpc, Recv.removes, readMore] using hp
      · rw [isSome_heap_finish (s := { s with history := s.history ++ [Act.recv p'] }) hp hfinish]
        cases rem with
        | true =>
          -- the request of the client that is about to be removed has a task
          have hne : p ≠ p' := by
            rintro rfl
            exact hnew (hledger.removing p (by rw [hpc]; rfl))
          simp [lost, hpc, hne]
        | false =>
          -- the end of the data, a failure, or no more data for now
          rcases hr with ⟨rfl, rfl⟩ | ⟨rfl, rfl⟩ | ⟨rfl, rfl⟩
          · simp [lost, hpc, Recv.removes]
          · simp [lost, hpc, Recv.removes]
          · cases hhup : e.epollHup <;> cases hrdhup : e.epollRdhup <;>
              simp [lost, hpc, Recv.removes, hhup, hrdhup]
    · exact absurd rfl (hl' user)
  · simpa [lost] using hp

end Lost

/-! ## Accounts -/

/-- Every request has its client until its task is pushed, and its task until it is deleted. -/
structure Accounted (s : ServerLoop HttpServer Nat) : Prop where
  connection : ∀ q < s.user.created, q ∉ s.user.pushed →
    (s.user.requests q).isSome ∧ (s.heap q).isSome
  task : ∀ q ∈ s.user.pushed, (s.user.requests q).isSome ↔ q ∈ s.user.tasks
  nodup : s.user.tasks.Nodup
  sound : s.user.misused = false

namespace Accounted

/-- A slot owns the request whose number its client has, before its task is pushed. -/
theorem slotOwns_iff (hledger : Ledger s) {i q : Nat} :
    s.SlotOwns i q ↔ s.acceptQueue i = some q ∧ (s.heap q).isSome ∧ q ∉ s.user.pushed := by
  rw [hledger.history q]
  constructor
  · rintro ⟨p, c, hi, hc, hptr, hlast⟩
    obtain rfl := Option.some.inj ((hledger.userptr p c hc).symm.trans hptr)
    exact ⟨hi, by rw [hc]; rfl, fun ⟨n, hn, hmem⟩ => hlast n hn hmem⟩
  · rintro ⟨hi, hq, hlast⟩
    obtain ⟨c, hc⟩ := Option.isSome_iff_exists.mp hq
    exact ⟨q, c, hi, hc, hledger.userptr q c hc, fun n hn hmem => hlast ⟨n, hn, hmem⟩⟩

/-- The accounts name the owner of every request. -/
theorem owned (hs : s.Accounted) (hledger : Ledger s) (hslots : s.Slots) : s.Owned where
  owner q hq := by
    have hlt : q < s.user.created := by
      by_contra hge
      simp [hledger.fresh q (by omega)] at hq
    by_cases hpushed : q ∈ s.user.pushed
    · -- its task owns it, and no slot does
      refine .inr ⟨?_, List.count_eq_one_of_mem hs.nodup ((hs.task q hpushed).mp hq)⟩
      rintro ⟨i, hi⟩
      exact ((slotOwns_iff hledger).mp hi).2.2 hpushed
    · -- its slot owns it, and no task does
      refine .inl ⟨?_, List.count_eq_zero.mpr fun hmem => hpushed (hledger.tasks q hmem)⟩
      obtain ⟨-, hclient⟩ := hs.connection q hlt hpushed
      obtain ⟨c, hc⟩ := Option.isSome_iff_exists.mp hclient
      obtain ⟨i, -, hindex, hi⟩ := hslots.slot q c hc
      refine ⟨i, (slotOwns_iff hledger).mpr ⟨hi, hclient, hpushed⟩, fun j hj => ?_⟩
      -- the client has no other slot
      obtain ⟨hjq, -⟩ := (slotOwns_iff hledger).mp hj
      obtain ⟨c', hc', hindex'⟩ := hslots.entry j q hjq
      obtain rfl := Option.some.inj (hc.symm.trans hc')
      exact Option.some.inj (hindex'.symm.trans hindex)
  sound := hs.sound

/-- A turn that neither accepts a client nor reads from one. -/
theorem of_quiet (hs : s.Accounted) (hquiet : Quiet s s')
    (hkeep : ∀ p, (s.heap p).isSome → p ∉ s.user.pushed → (s'.heap p).isSome) :
    s'.Accounted := by
  constructor
  · intro q hq hpushed
    rw [hquiet.user] at hq hpushed ⊢
    obtain ⟨hrequest, hclient⟩ := hs.connection q hq hpushed
    exact ⟨hrequest, hkeep q hclient hpushed⟩
  · rw [hquiet.user]
    exact hs.task
  · rw [hquiet.user]
    exact hs.nodup
  · rw [hquiet.user]
    exact hs.sound

/-- A client is accepted, and with it a request is created. -/
theorem accept (hs : s.Accounted) (hledger : Ledger s) {c : SocketContext Nat}
    {client : ClientContext Nat} (huser : s'.user = (onAccept s.user client).1)
    (hheap : s'.heap = Function.update s.heap s.allocated (some c)) : s'.Accounted := by
  constructor
  · intro q hq hpushed
    rw [huser] at hq hpushed ⊢
    rw [hheap, ← hledger.created]
    -- the new request has the new client
    by_cases hnew : q = s.user.created
    · simp [onAccept, hnew]
    · have hlt : q < s.user.created + 1 := hq
      simpa [onAccept, hnew] using hs.connection q (by omega) hpushed
  · intro q hq
    rw [huser] at hq ⊢
    -- the new request has no task yet
    have hne : q ≠ s.user.created := (hledger.pushed_lt q hq).ne
    simpa [onAccept, hne, HttpServer.tasks] using hs.task q hq
  · rw [huser]
    exact hs.nodup
  · rw [huser]
    exact hs.sound

/-- Data arrives for a client whose request has no task. -/
theorem read (hs : s.Accounted) (hledger : Ledger s) (hslots : s.Slots) {now : Int} {e : EpollEvent}
    {p : Nat} {rest : List EpollEvent} {c : SocketContext Nat} {data : Bytes}
    {result : HttpServer × Int} (hc : s.heap p = some c) (hnew : p ∉ s.user.pushed)
    (hread : s.user.onRead c.cli data = some result)
    (hs' : result.2 < 0 ∧ s' = s.dispatch handle now e p rest c result ∨
      0 ≤ result.2 ∧ s' = s.readMore p result) : s'.Accounted := by
  have hlt : p < s.user.created := by
    rw [hledger.created]
    by_contra hge
    simp [hslots.fresh p (by omega)] at hc
  have hread : s.user.read p data = some result := by
    rwa [onRead, hledger.userptr p c hc] at hread
  rcases read_cases hread with ⟨hr, -⟩ | ⟨r, r', hr, -, ⟨-, rfl⟩ | ⟨-, rfl⟩⟩
  · -- the request of a client without a task is there
    have hrequest := (hs.connection p hlt hnew).1
    simp [hr] at hrequest
  · obtain ⟨-, rfl⟩ := hs'.resolve_right fun h => absurd h.1 (by simp)
    -- the request is finished and becomes a task
    have htasks : ((s.user.queued ++ [p]) ++ s.user.running).Perm (p :: s.user.tasks) := by
      rw [List.append_assoc]
      exact List.perm_middle
    constructor
    · intro q hq hpushed
      -- the other clients keep their requests
      obtain ⟨hpushed, hne⟩ : q ∉ s.user.pushed ∧ q ≠ p := by
        simpa [dispatch, not_or] using hpushed
      simpa [dispatch, hne] using hs.connection q hq hpushed
    · intro q hq
      show (Function.update s.user.requests p (some r') q).isSome ↔
        q ∈ (s.user.queued ++ [p]) ++ s.user.running
      rw [htasks.mem_iff, List.mem_cons]
      by_cases hne : q = p
      · simp [hne]
      · have hq : q ∈ s.user.pushed := by simpa [dispatch, hne] using hq
        simpa [hne] using hs.task q hq
    · show ((s.user.queued ++ [p]) ++ s.user.running).Nodup
      rw [htasks.nodup_iff, List.nodup_cons]
      exact ⟨fun hmem => hnew (hledger.tasks p hmem), hs.nodup⟩
    · exact hs.sound
  · obtain ⟨-, rfl⟩ := hs'.resolve_left fun h => absurd h.1 (by simp)
    -- the request stays with the client
    refine ⟨fun q hq hpushed => ?_, fun q hq => ?_, hs.nodup, hs.sound⟩
    · by_cases hne : q = p
      · simp [readMore, hne, hc]
      · simpa [readMore, hne] using hs.connection q hq hpushed
    · have hne : q ≠ p := by
        rintro rfl
        exact hnew hq
      show (Function.update s.user.requests p (some r') q).isSome ↔ q ∈ s.user.tasks
      rw [Function.update_of_ne hne]
      exact hs.task q hq

/-- A step of a worker thread. -/
theorem work (hs : s.Accounted) (hledger : Ledger s) {step : WorkerStep} {user : HttpServer}
    (hwork : s.user.work step = some user) : { s with user }.Accounted := by
  -- the requests of the tasks that are running have not been deleted
  have hlive : ∀ i : Nat, ∀ q, s.user.running[i]? = some q → (s.user.requests q).isSome := by
    intro i q hi
    have hq : q ∈ s.user.tasks := List.mem_append_right _ (List.mem_of_getElem? hi)
    exact (hs.task q (hledger.tasks q hq)).mpr hq
  rcases work_cases hwork with ⟨q, rest, hqueued, rfl⟩ | ⟨i, q, hi, rfl⟩ | ⟨i, q, hi, rfl⟩
  · -- a task goes from the queue to a thread
    have htasks : (rest ++ (s.user.running ++ [q])).Perm s.user.tasks := by
      rw [HttpServer.tasks, hqueued, ← List.append_assoc]
      exact List.perm_append_singleton q _
    refine ⟨hs.connection, fun q' hq' => ?_, htasks.nodup_iff.mpr hs.nodup, hs.sound⟩
    show (s.user.requests q').isSome ↔ q' ∈ rest ++ (s.user.running ++ [q])
    rw [htasks.mem_iff]
    exact hs.task q' hq'
  · -- a thread uses its request
    refine ⟨hs.connection, hs.task, hs.nodup, ?_⟩
    show (s.user.misused || (s.user.requests q).isNone) = false
    rw [hs.sound, Option.isNone_eq_false_iff.mpr (hlive i q hi), Bool.or_self]
  · -- a thread deletes its task and the request
    have htasks : s.user.tasks.Perm (q :: (s.user.queued ++ s.user.running.eraseIdx i)) := by
      obtain ⟨hlt, rfl⟩ := List.getElem?_eq_some_iff.mp hi
      exact ((List.getElem_cons_eraseIdx_perm hlt).symm.append_left _).trans List.perm_middle
    have hnodup := List.nodup_cons.mp (htasks.nodup_iff.mp hs.nodup)
    have hpushed : q ∈ s.user.pushed := hledger.tasks q (htasks.mem_iff.mpr List.mem_cons_self)
    refine ⟨fun q' hq' hpushed' => ?_, fun q' hq' => ?_, hnodup.2, ?_⟩
    · have hne : q' ≠ q := by
        rintro rfl
        exact hpushed' hpushed
      simpa [hne] using hs.connection q' hq' hpushed'
    · show (Function.update s.user.requests q none q').isSome ↔
        q' ∈ s.user.queued ++ s.user.running.eraseIdx i
      by_cases hne : q' = q
      · rw [hne, Function.update_self]
        exact ⟨fun h => by simp at h, fun h => absurd h hnodup.1⟩
      · rw [Function.update_of_ne hne, hs.task q' hq', htasks.mem_iff, List.mem_cons,
          or_iff_right hne]
    · show (s.user.misused || (s.user.requests q).isNone) = false
      rw [hs.sound, Option.isNone_eq_false_iff.mpr (hlive i q hi), Bool.or_self]

/-- A step that loses no client, and reads nothing into a dispatched request, keeps the accounts. -/
theorem step (hs : s.Accounted) (hreach : httpServer.Reachable s) (hlost : s.lost l = [])
    (hquiet : s.readsOn l = false) (hnext : httpServer.next s l = some s') : s'.Accounted := by
  have hledger := ledger_of_reachable hreach
  have hloop := serverLoop_of_reachable hreach
  rcases HttpServer.next_cases hnext with ⟨l', rfl, hl', hturn⟩ | ⟨step, user, rfl, hwork, rfl⟩
  · rcases turn_cases hl' hturn with ⟨c, rfl, -, -, huser, -, hheap, -⟩ |
      ⟨now, e, p, rest, rem, data, c, read, rfl, hpc, hc, hread, hs'⟩ | ⟨hturn, -⟩
    · exact hs.accept hledger huser hheap
    · -- nothing is read into a request that has a task
      have hnew : p ∉ s.user.pushed := by
        rcases hledger.fd_pos (deadlines_of_reachable hloop) hc with ⟨-, hnew⟩ | ⟨hremoving, -⟩
        · exact hnew
        · simp [readsOn, hremoving] at hquiet
      exact hs.read hledger (slots_of_reachable hloop) hc hnew hread hs'
    · -- nobody is lost, so that no client goes whose request has no task
      refine hs.of_quiet hturn fun p hp hnew => ?_
      rw [isSome_heap_next hreach hnext hp hnew, hlost]
      exact List.not_mem_nil
  · exact hs.work hledger hwork

end Accounted

/-! ## Steps after which a request has no single owner -/

/-- A client that is lost is there, and no task has been pushed for its request. -/
theorem isSome_heap_of_lost (hs : httpServer.Reachable s) {p : Nat} (hp : p ∈ s.lost l) :
    (s.heap p).isSome ∧ p ∉ s.user.pushed := by
  have hloop := serverLoop_of_reachable hs
  obtain ⟨hclient, hpc⟩ : (s.heap p).isSome ∧ s.pc.removing = none := by
    have hlive := live_of_reachable hloop
    -- a client that the loop deals with is in the heap, and so is one that the sweep finds
    unfold lost at hp
    split at hp
    · split at hp
      · next now p' hup rdhup rest hpc =>
        obtain rfl : p = p' := by
          split at hp
          · exact List.mem_singleton.mp hp
          · cases hp
        exact ⟨hlive.pending p (by simp [hpc, Pc.clients, clientsOf]), by rw [hpc]; rfl⟩
      · cases hp
    · split at hp
      · next now e p' rest hpc =>
        obtain rfl : p = p' := by
          split at hp
          · exact List.mem_singleton.mp hp
          · cases hp
        exact ⟨hlive.pending p (by simp [hpc, Pc.clients]), by rw [hpc]; rfl⟩
      · cases hp
    · split at hp
      · next hpc =>
        obtain ⟨c, hc, -⟩ := (Option.any_eq_true ..).mp (List.mem_filter.mp hp).2
        exact ⟨by rw [hc]; rfl, by rw [hpc]; rfl⟩
      · cases hp
    · cases hp
  -- the loop does not remove it, so that its `fd_` is positive
  obtain ⟨c, hc⟩ := Option.isSome_iff_exists.mp hclient
  rcases (ledger_of_reachable hs).fd_pos (deadlines_of_reachable hloop) hc with
    ⟨-, hnew⟩ | ⟨hremoving, -⟩
  · exact ⟨hclient, hnew⟩
  · rw [hpc] at hremoving
    cases hremoving

/-- Clients are lost in turns that neither accept a client nor read from one. -/
theorem user_of_lost (hlost : s.lost l ≠ []) (hnext : httpServer.next s l = some s') :
    s'.user = s.user := by
  rcases HttpServer.next_cases hnext with ⟨l', rfl, hl', hturn⟩ | ⟨step, user, rfl, -, rfl⟩
  · rcases turn_cases hl' hturn with ⟨c, rfl, -⟩ |
      ⟨now, e, p, rest, rem, data, c, read, rfl, hpc, -⟩ | ⟨hquiet, -⟩
    · exact absurd rfl hlost
    · -- data are not lost
      cases rem <;> simp [lost, hpc, Recv.removes] at hlost
    · exact hquiet.user
  · exact absurd rfl hlost

namespace Accounted

/-- The request of a client that is lost has no owner. -/
theorem not_owned_of_lost (hs : s.Accounted) (hreach : httpServer.Reachable s) {p : Nat}
    (hp : p ∈ s.lost l) (hnext : httpServer.next s l = some s') : ¬ s'.Owned := by
  intro howned
  have hledger := ledger_of_reachable hreach
  have hledger' := ledger_of_reachable (hreach.step l hnext)
  obtain ⟨hclient, hnew⟩ := isSome_heap_of_lost hreach hp
  have hgone : ¬ (s'.heap p).isSome := by
    rw [isSome_heap_next hreach hnext hclient hnew]
    exact not_not_intro hp
  have huser := user_of_lost (List.ne_nil_of_mem hp) hnext
  have hlt : p < s.user.created := by
    rw [hledger.created]
    by_contra hge
    simp [(slots_of_reachable (serverLoop_of_reachable hreach)).fresh p (by omega)] at hclient
  have hrequest : (s'.user.requests p).isSome := by
    rw [huser]
    exact (hs.connection p hlt hnew).1
  -- a slot would need the client, and a task would have been pushed
  rcases howned.owner p hrequest with ⟨⟨i, hi, -⟩, -⟩ | ⟨-, htask⟩
  · exact hgone ((slotOwns_iff hledger').mp hi).2.1
  · have hmem : p ∈ s'.user.tasks := List.count_pos_iff.mp (by omega)
    exact hnew (huser ▸ hledger'.tasks p hmem)

/-- A request that is read after it has been dispatched is used after its deletion, or gets a second
task. -/
theorem not_owned_of_readsOn (hs : s.Accounted) (hreach : httpServer.Reachable s)
    (hreadsOn : s.readsOn l = true) (hnext : httpServer.next s l = some s') : ¬ s'.Owned := by
  intro howned
  have hledger := ledger_of_reachable hreach
  -- the step is a `recv` with data for the client that is about to be removed
  obtain ⟨data, rfl⟩ : ∃ data, l = .loop (.recv (.data data)) := by
    unfold readsOn at hreadsOn
    split at hreadsOn
    · exact ⟨_, rfl⟩
    · cases hreadsOn
  obtain ⟨p, hp⟩ := Option.isSome_iff_exists.mp (show s.pc.removing.isSome from hreadsOn)
  have hpushed := hledger.removing p hp
  obtain ⟨now, e, rest, hpc⟩ := reading_of_removing hp
  rcases HttpServer.next_cases hnext with ⟨l', hl, hl', hturn⟩ | ⟨step, user, hl, -, -⟩
  · cases hl
    rcases turn_cases hl' hturn with ⟨c, hl, -⟩ |
      ⟨now', e', p', rest', rem, data', c, read, hl, hpc', hc, hread, hs'⟩ | ⟨-, -, hl⟩
    · cases hl
    · cases hl
      obtain rfl : p = p' := by
        rw [hpc] at hpc'
        cases hpc'
        rfl
      have hread : s.user.read p data = some read := by
        rwa [onRead, hledger.userptr p c hc] at hread
      rcases read_cases hread with ⟨-, rfl⟩ | ⟨r, r', hr, happend, ⟨-, rfl⟩ | ⟨hmore, -⟩⟩
      · obtain ⟨-, rfl⟩ := hs'.resolve_left fun h => absurd h.1 (by simp)
        -- the request has been deleted
        cases howned.sound
      · obtain ⟨-, rfl⟩ := hs'.resolve_right fun h => absurd h.1 (by simp)
        -- the request is still there, with a task, and gets another one
        have hrequest : (Function.update s.user.requests p (some r') p).isSome := by simp
        have hmem : p ∈ s.user.tasks := (hs.task p hpushed).mp (by rw [hr]; rfl)
        have hcount : ((s.user.queued ++ [p]) ++ s.user.running).count p =
            s.user.tasks.count p + 1 := by
          simp only [HttpServer.tasks, List.count_append, List.count_singleton_self]
          omega
        have hpos := List.count_pos_iff.mpr hmem
        rcases howned.owner p hrequest with ⟨-, htask⟩ | ⟨-, htask⟩
        · exact absurd (hcount.symm.trans htask) (by omega)
        · exact absurd (hcount.symm.trans htask) (by omega)
      · -- a request that has been dispatched is finished
        have := HttpRequest.finished_append (hledger.finished p hpushed r hr) happend
        simp [hmore] at this
    · exact absurd rfl (hl data)
  · cases hl

end Accounted

end ServerLoop

/-! ## Runs -/

/-- As long as no step loses a client or reads a request that has been dispatched, every request has
one owner, and none is used after its deletion; the first step that does so ends this. -/
theorem owned_of_reachable {s : ServerLoop HttpServer Nat}
    (hs : (httpServer.restrict fun s l => s.lost l = [] ∧ s.readsOn l = false).Reachable s) :
    s.Owned ∧ ∀ l s', httpServer.next s l = some s' →
      (s'.Owned ↔ s.lost l = [] ∧ s.readsOn l = false) := by
  have hreach := hs.of_restrict
  -- the accounts are kept by every step that meets the condition
  have haccounted : httpServer.Reachable s ∧ s.Accounted := by
    refine hs.invariant_restrict (P := fun s => httpServer.Reachable s ∧ s.Accounted)
      ⟨.refl, ?_⟩ ?_
    · constructor <;> simp [httpServer, ServerLoop.start, empty, HttpServer.tasks]
    · rintro s l s' ⟨hreach, haccounted⟩ ⟨hlost, hquiet⟩ hnext
      exact ⟨hreach.step l hnext, haccounted.step hreach hlost hquiet hnext⟩
  have howned : ∀ {s}, httpServer.Reachable s → s.Accounted → s.Owned := fun hreach haccounted =>
    haccounted.owned (ledger_of_reachable hreach)
      (ServerLoop.slots_of_reachable (serverLoop_of_reachable hreach))
  refine ⟨howned hreach haccounted.2, fun l s' hnext => ⟨fun howned' => ⟨?_, ?_⟩, fun hok => ?_⟩⟩
  · -- and a step that does not meet it leaves a request without its single owner
    refine List.eq_nil_iff_forall_not_mem.mpr fun p hp => ?_
    exact haccounted.2.not_owned_of_lost hreach hp hnext howned'
  · refine eq_false_of_ne_true fun hreadsOn => ?_
    exact haccounted.2.not_owned_of_readsOn hreach hreadsOn hnext howned'
  · exact howned (hreach.step l hnext) (haccounted.2.step hreach hok.1 hok.2 hnext)

/-- The steps in which the request of a connection is read, answered and deleted. -/
def answered : List HttpLabel :=
  connected ++ [.loop (.recv (.data getRequest)), .loop (.recv .again), .worker .take,
    .worker (.run 0), .worker (.finish 0)]

/-- A request that is read, answered and deleted has one owner all the time. -/
theorem owned_of_reachable_answered :
    ∃ s, httpServer.exec httpServer.init answered = some s ∧
      s.user.pushed = [0] ∧ (s.user.requests 0).isNone ∧ s.Owned := by
  obtain ⟨s, hexec, hpushed, hdeleted, hok⟩ : ∃ s, httpServer.exec httpServer.init answered =
      some s ∧ s.user.pushed = [0] ∧ (s.user.requests 0).isNone ∧
        (httpServer.restrict fun s l => s.lost l = [] ∧ s.readsOn l = false).exec httpServer.init
          answered = some s := ⟨_, rfl, rfl, rfl, rfl⟩
  exact ⟨s, hexec, hpushed, hdeleted,
    (owned_of_reachable (TransitionSystem.reachable_of_exec hok)).1⟩

/-- The request of a connection that is closed before it has sent a whole request has no owner. -/
theorem not_owned : ¬ ∀ s : ServerLoop HttpServer Nat, httpServer.Reachable s → s.Owned := by
  intro howned
  obtain ⟨s, hexec, hrequest, hgone, htasks⟩ : ∃ s, httpServer.exec httpServer.init
      (connected ++ [.loop (.recv .closed)]) = some s ∧ (s.user.requests 0).isSome ∧
        (s.heap 0).isNone ∧ s.user.tasks = [] := ⟨_, rfl, rfl, rfl, rfl⟩
  have hreach := TransitionSystem.reachable_of_exec hexec
  rcases (howned s hreach).owner 0 hrequest with ⟨⟨i, hi, -⟩, -⟩ | ⟨-, htask⟩
  · have hclient := ((ServerLoop.Accounted.slotOwns_iff (ledger_of_reachable hreach)).mp hi).2.1
    rw [Option.isNone_iff_eq_none.mp hgone] at hclient
    cases hclient
  · rw [htasks] at htask
    cases htask

end MosqCluster.Server
