import MosqCluster.Foundation.SlotTable
import MosqCluster.Server.EventLoop

/-!
# The slot table of the event loop

`accept_queue` holds every client that has not been freed, each in the slot that its `index_` names,
and `accept_size` counts them. The scan for a free slot looks at the first `accept_size` slots only,
while removals may leave clients in higher ones: a free slot is always among these, because the
other clients are one less.

## Main definitions

* `ServerLoop.SlotsConsistent`: what the loop relies on;
* `ServerLoop.Slots`: the invariant that implies it.

## Main results

* `slotsConsistent_of_reachable`: it holds in every reachable state, for any callbacks;
* `ServerLoop.next_isSome_of_reachable`: the loop uses no freed client.
-/

namespace MosqCluster.Server

open SlotTable

namespace ServerLoop

variable {U P : Type*} {h : ServerHandle U P} {s s' : ServerLoop U P} {l : Label U}

/-! ## Invariant -/

/-- The slots, the counter and the clients agree. -/
structure SlotsConsistent (s : ServerLoop U P) : Prop where
  /-- `accept_size` is the number of entries that are not `NULL`. -/
  size : s.acceptSize = (occupied s.acceptQueue maxAcceptSize).card
  /-- `accept_size` is at most `max_accept_size`. -/
  size_le : s.acceptSize ≤ maxAcceptSize
  /-- A client that has not been freed is in the slot that its `index_` names. -/
  slot : ∀ p c, s.heap p = some c →
    ∃ i < maxAcceptSize, c.index = some i ∧ s.acceptQueue i = some p
  /-- Distinct clients have distinct slots. -/
  distinct : ∀ p p' c c', s.heap p = some c → s.heap p' = some c' → p ≠ p' → c.index ≠ c'.index
  /-- Below the limit, the scan for a free slot finds one. -/
  scan : s.acceptSize < maxAcceptSize →
    (freeSlot s.acceptQueue (s.acceptSize + 1).toNat).isSome

/-- The entries of the table and the clients point to each other. -/
structure Slots (s : ServerLoop U P) : Prop where
  size : s.acceptSize = (occupied s.acceptQueue maxAcceptSize).card
  /-- A client is in its slot. -/
  slot : ∀ p c, s.heap p = some c →
    ∃ i < maxAcceptSize, c.index = some i ∧ s.acceptQueue i = some p
  /-- An entry points to a client of this slot. -/
  entry : ∀ i p, s.acceptQueue i = some p → ∃ c, s.heap p = some c ∧ c.index = some i
  /-- Clients yet to be allocated are not there. -/
  fresh : ∀ p, s.allocated ≤ p → s.heap p = none

namespace Slots

/-- The slot of a client holds that client. -/
theorem queue_of_index (hs : s.Slots) {p i : Nat} {c : SocketContext P} (hc : s.heap p = some c)
    (hi : c.index = some i) : i < maxAcceptSize ∧ s.acceptQueue i = some p := by
  obtain ⟨j, hj, hindex, hqueue⟩ := hs.slot p c hc
  obtain rfl := Option.some.inj (hi.symm.trans hindex)
  exact ⟨hj, hqueue⟩

/-- Below the limit, the scan finds a slot, and it is free. -/
theorem exists_freeSlot (hs : s.Slots) (hlt : s.acceptSize < maxAcceptSize) :
    ∃ i, freeSlot s.acceptQueue (s.acceptSize + 1).toNat = some i ∧ i < maxAcceptSize ∧
      s.acceptQueue i = none := by
  have hsize := hs.size
  -- `accept_size_ + 1` slots cannot all be taken by `accept_size_` clients
  obtain ⟨i, hi, hfree⟩ := exists_free (q := s.acceptQueue) (n := maxAcceptSize)
    (m := (s.acceptSize + 1).toNat) (by omega) (by omega)
  have hsome : (freeSlot s.acceptQueue (s.acceptSize + 1).toNat).isSome := by
    refine List.find?_isSome.mpr ⟨i, List.mem_range.mpr hi, ?_⟩
    rw [hfree]
    rfl
  obtain ⟨j, hj⟩ := Option.isSome_iff_exists.mp hsome
  have hjlt := List.mem_range.mp (List.mem_of_find?_eq_some hj)
  exact ⟨j, hj, by omega, by simpa using List.find?_some hj⟩

/-- The invariant implies what the loop relies on. -/
theorem consistent (hs : s.Slots) : s.SlotsConsistent where
  size := hs.size
  size_le := by
    have := card_occupied_le (q := s.acceptQueue) (n := maxAcceptSize)
    have := hs.size
    omega
  slot := hs.slot
  distinct p p' c c' hc hc' hne hindex := by
    -- two clients with one index would be in one slot
    obtain ⟨i, -, hi, hp⟩ := hs.slot p c hc
    obtain ⟨-, hp'⟩ := hs.queue_of_index hc' (hindex ▸ hi)
    exact hne (Option.some.inj (hp.symm.trans hp'))
  scan hlt := by
    obtain ⟨i, hi, -⟩ := hs.exists_freeSlot hlt
    rw [hi]
    rfl

/-! ## Operations -/

/-- A turn that neither moves a client nor frees or allocates one. -/
theorem of_frame (hs : s.Slots) (hsize : s'.acceptSize = s.acceptSize)
    (hqueue : s'.acceptQueue = s.acceptQueue) (hallocated : s'.allocated = s.allocated)
    (hheap : ∀ p, (s'.heap p).map SocketContext.index = (s.heap p).map SocketContext.index) :
    s'.Slots := by
  -- the clients are the same, with the same indices
  have hindex : ∀ {p c}, s'.heap p = some c → ∃ c₀, s.heap p = some c₀ ∧ c₀.index = c.index := by
    intro p c hc
    have := hheap p
    rw [hc] at this
    exact Option.map_eq_some_iff.mp this.symm
  have hindex' : ∀ {p c}, s.heap p = some c → ∃ c', s'.heap p = some c' ∧ c'.index = c.index := by
    intro p c hc
    have := hheap p
    rw [hc] at this
    exact Option.map_eq_some_iff.mp this
  constructor
  · rw [hsize, hqueue]
    exact hs.size
  · intro p c hc
    obtain ⟨c₀, hc₀, hi⟩ := hindex hc
    rw [← hi, hqueue]
    exact hs.slot p c₀ hc₀
  · intro i p hp
    rw [hqueue] at hp
    obtain ⟨c, hc, hi⟩ := hs.entry i p hp
    obtain ⟨c', hc', hi'⟩ := hindex' hc
    exact ⟨c', hc', hi'.trans hi⟩
  · intro p hp
    rw [hallocated] at hp
    simpa [hs.fresh p hp] using hheap p

/-- A client that keeps its slot is changed. -/
theorem update (hs : s.Slots) {p : Nat} {c c' : SocketContext P} (hc : s.heap p = some c)
    (hindex : c'.index = c.index) {pc : Pc} {user : U} {interest : List Nat} {history : List Act} :
    { s with
      pc, user, interest, history
      heap := Function.update s.heap p (some c') : ServerLoop U P }.Slots := by
  refine hs.of_frame rfl rfl rfl fun p' => ?_
  by_cases hp : p' = p
  · simp [hp, hc, hindex]
  · simp [hp]

/-- A client leaves its slot and is freed. -/
theorem free (hs : s.Slots) {p i : Nat} {c : SocketContext P} (hc : s.heap p = some c)
    (hi : c.index = some i) : (s.free p i).Slots := by
  obtain ⟨hlt, hqueue⟩ := hs.queue_of_index hc hi
  constructor
  · -- one entry less, and one client less
    have hcard := card_occupied_clear (q := s.acceptQueue) hlt (by rw [hqueue]; rfl)
    have hsize := hs.size
    show s.acceptSize - 1 =
      ((occupied (Function.update s.acceptQueue i none) maxAcceptSize).card : Int)
    omega
  · intro p' c' hc'
    -- the other clients are in other slots
    have hne : p' ≠ p := by
      rintro rfl
      simp [ServerLoop.free] at hc'
    have hc' : s.heap p' = some c' := by simpa [ServerLoop.free, hne] using hc'
    obtain ⟨j, hj, hindex, hj'⟩ := hs.slot p' c' hc'
    refine ⟨j, hj, hindex, ?_⟩
    have hji : j ≠ i := by
      rintro rfl
      exact hne (Option.some.inj (hj'.symm.trans hqueue))
    simpa [ServerLoop.free, hji] using hj'
  · intro j p' hp'
    -- the other slots hold other clients
    have hji : j ≠ i := by
      rintro rfl
      simp [ServerLoop.free] at hp'
    have hp' : s.acceptQueue j = some p' := by simpa [ServerLoop.free, hji] using hp'
    obtain ⟨c', hc', hindex⟩ := hs.entry j p' hp'
    have hne : p' ≠ p := by
      rintro rfl
      obtain rfl := Option.some.inj (hc.symm.trans hc')
      exact hji (Option.some.inj (hindex.symm.trans hi))
    exact ⟨c', by simpa [ServerLoop.free, hne] using hc', hindex⟩
  · intro p' hp'
    by_cases hne : p' = p
    · -- the number of the client is not used again
      simp [ServerLoop.free, hne]
    · simpa [ServerLoop.free, hne] using hs.fresh p' hp'

/-- `EPOLL_CTL_DEL`, `close_cb` and `close` do not touch the table. -/
theorem hangUp (hs : s.Slots) (p : Nat) (c : SocketContext P) : (s.hangUp h p c).Slots := by
  unfold ServerLoop.hangUp
  split
  · exact hs.of_frame rfl rfl rfl fun _ => rfl
  · exact hs

/-- The end of an event. -/
theorem finish (hs : s.Slots) {now : Int} {e : EpollEvent} {p : Nat} {rest : List EpollEvent}
    {rem : Bool} (hfinish : s.finish h now e p rest rem = some s') : s'.Slots := by
  rcases finish_cases hfinish with ⟨-, c, i, hc, hi, rfl⟩ | ⟨-, rfl⟩
  · exact ((hs.free hc hi).hangUp (h := h) p c).of_frame rfl rfl rfl fun _ => rfl
  · exact hs.of_frame rfl rfl rfl fun _ => rfl

/-- A new client. -/
theorem insert (hs : s.Slots) (now : Int) (rest : List EpollEvent) (socket : Int) :
    (s.insert h now rest socket).Slots := by
  unfold ServerLoop.insert
  split
  · exact hs.of_frame rfl rfl rfl fun _ => rfl
  · obtain ⟨i, hslot, hi, hfree⟩ := hs.exists_freeSlot (by omega)
    have hnew := hs.fresh s.allocated le_rfl
    simp only [hslot, Option.elim_some]
    constructor
    · -- one entry more, and one client more
      have hcard := card_occupied_fill (q := s.acceptQueue) hi hfree s.allocated
      have hsize := hs.size
      show s.acceptSize + 1 =
        ((occupied (Function.update s.acceptQueue i (some s.allocated)) maxAcceptSize).card : Int)
      omega
    · intro p c hc
      by_cases hp : p = s.allocated
      · -- the new client is in the slot that has been found
        obtain rfl : newClient h now socket (some i) _ = c := by simpa [hp] using hc
        exact ⟨i, hi, rfl, by simp [hp]⟩
      · obtain ⟨j, hj, hindex, hj'⟩ := hs.slot p c (by simpa [hp] using hc)
        -- the slots of the other clients were not free
        have hji : j ≠ i := by
          rintro rfl
          simp [hfree] at hj'
        exact ⟨j, hj, hindex, by simpa [hji] using hj'⟩
    · intro j p hp
      by_cases hji : j = i
      · -- the slot that has been found holds the new client
        obtain rfl : s.allocated = p := by simpa [hji] using hp
        refine ⟨_, Function.update_self .., ?_⟩
        rw [hji]
        rfl
      · obtain ⟨c, hc, hindex⟩ := hs.entry j p (by simpa [hji] using hp)
        have hp' : p ≠ s.allocated := by
          rintro rfl
          simp [hnew] at hc
        exact ⟨c, by simpa [hp'] using hc, hindex⟩
    · intro p hp
      -- the number of the new client is used now
      have hlt : s.allocated < p := hp
      simpa [hlt.ne'] using hs.fresh p hlt.le

/-- One slot of the sweep. -/
theorem sweepSlot (hs : s.Slots) {now : Int} {i : Nat} (hsweep : s.sweepSlot h now i = some s') :
    s'.Slots := by
  unfold ServerLoop.sweepSlot at hsweep
  split at hsweep
  · cases hsweep
    exact hs
  · next p hp =>
    obtain ⟨c, hc, rfl⟩ := Option.map_eq_some_iff.mp hsweep
    split
    · -- the client in the slot has the index of the slot
      obtain ⟨c', hc', hi⟩ := hs.entry i p hp
      obtain rfl := Option.some.inj (hc.symm.trans hc')
      have htimeout : { s with user := h.timeoutCb s.user c.cli : ServerLoop U P }.Slots :=
        hs.of_frame rfl rfl rfl fun _ => rfl
      exact (htimeout.free hc hi).hangUp p c
    · exact hs

/-- What every slot of the sweep keeps, the sweep keeps. -/
theorem foldlM_sweepSlot {Q : ServerLoop U P → Prop} {now : Int}
    (hQ : ∀ {s s' i}, Q s → s.sweepSlot h now i = some s' → Q s') {is : List Nat} (hs : Q s)
    (hsweep : is.foldlM (ServerLoop.sweepSlot h now) s = some s') : Q s' := by
  induction is generalizing s with
  | nil =>
    cases hsweep
    exact hs
  | cons i is ih =>
    obtain ⟨s₁, hslot, hrest⟩ := Option.bind_eq_some_iff.mp hsweep
    exact ih (hQ hs hslot) hrest

/-- Every turn keeps the table consistent. -/
theorem step (hs : s.Slots) (hnext : s.next h l = some s') : s'.Slots := by
  rcases next_cases hnext with ⟨now, -, -, hsweep⟩ | ⟨now, events, -, -, -, rfl⟩ |
    ⟨now, e, rest, -, hpc, hevent⟩ | ⟨now, rest, socket, -, hpc, ⟨-, rfl⟩ | rfl⟩ |
    ⟨now, e, p, rest, rem, r, -, hpc, hrecv⟩ | ⟨user, -, rfl⟩
  · -- a sweep frees clients one by one
    exact foldlM_sweepSlot (fun hs => hs.sweepSlot) hs hsweep
  · exact hs.of_frame rfl rfl rfl fun _ => rfl
  · rcases onEvent_cases hevent with ⟨-, rfl⟩ | ⟨p, c, -, hc, -, rfl⟩ | ⟨p, -, -, hfinish⟩
    · exact hs.of_frame rfl rfl rfl fun _ => rfl
    · -- a client that is readable keeps its slot
      exact hs.update hc (show (readable h c now).index = c.index from rfl)
    · exact hs.finish hfinish
  · exact hs.insert now rest socket
  · exact hs.of_frame rfl rfl rfl fun _ => rfl
  · rcases onRecv_cases hrecv with ⟨bytes, c, read, -, hc, -, ⟨-, rfl⟩ | ⟨-, rfl⟩⟩ |
      ⟨rem', -, hfinish⟩
    · -- and so does one whose request is dispatched
      exact hs.update hc (show (dispatched h c now).index = c.index from rfl)
    · exact hs.of_frame rfl rfl rfl fun _ => rfl
    · have hs₁ : { s with history := s.history ++ [Act.recv p] : ServerLoop U P }.Slots :=
        hs.of_frame rfl rfl rfl fun _ => rfl
      exact hs₁.finish hfinish
  · exact hs.of_frame rfl rfl rfl fun _ => rfl

end Slots

/-! ## No freed client is used -/

end ServerLoop

/-- The clients that events are about. -/
def clientsOf (events : List EpollEvent) : List Nat :=
  events.filterMap fun e => match e.source with
    | .listenSocket => none
    | .client p => some p

/-- The clients that the loop still has to look at in this round of events. -/
def Pc.clients : Pc → List Nat
  | .wait => []
  | .event _ e rest => clientsOf (e :: rest)
  | .accepting _ rest => clientsOf rest
  | .reading _ _ p rest _ => p :: clientsOf rest

@[simp]
theorem Pc.clients_resume (now : Int) (events : List EpollEvent) :
    (Pc.resume now events).clients = clientsOf events := by
  cases events <;> rfl

namespace ServerLoop

variable {U P : Type*} {h : ServerHandle U P} {s s' : ServerLoop U P} {l : Label U}

/-- The clients that are registered, or that the loop has yet to look at, have not been freed. -/
structure Live (s : ServerLoop U P) : Prop where
  /-- A registered client has not been freed, and its socket is open. -/
  interest : ∀ p ∈ s.interest, ∃ c, s.heap p = some c ∧ c.fd > 0
  /-- A client is registered once. -/
  once : s.interest.Nodup
  /-- The loop has yet to look at clients that have not been freed. -/
  pending : ∀ p ∈ s.pc.clients, (s.heap p).isSome
  /-- It looks at each of them once. -/
  distinct : s.pc.clients.Nodup

namespace Live

/-- The clients of the events that `epoll_wait` returns. -/
theorem clientsOf_of_mayReturn {events : List EpollEvent} (hevents : s.MayReturn events) :
    (∀ p ∈ clientsOf events, p ∈ s.interest) ∧ (clientsOf events).Nodup := by
  constructor
  · intro p hp
    -- the source of the event is registered
    obtain ⟨e, he, hsource⟩ := List.mem_filterMap.mp hp
    have hmem := hevents.2.1 e he
    cases hs : e.source with
    | listenSocket => simp [hs] at hsource
    | client p' =>
      obtain rfl : p' = p := by simpa [hs] using hsource
      simpa [registered, hs] using hmem
  · -- the sources are distinct, so that the clients among them are
    have hmap : clientsOf events = (events.map EpollEvent.source).filterMap fun
        | .listenSocket => none
        | .client p => some p := by
      rw [List.filterMap_map]
      rfl
    rw [hmap]
    refine hevents.1.filterMap fun a b p ha hb => ?_
    cases a <;> cases b <;> simp_all

/-- The clients that stay registered when a client is freed. -/
theorem interest_free (hs : s.Live) {p p' : Nat} {i : Nat} {c : SocketContext P}
    (hc : s.heap p = some c) (hp' : p' ∈ ((s.free p i).hangUp h p c).interest) :
    p' ≠ p ∧ p' ∈ s.interest := by
  unfold hangUp at hp'
  split at hp'
  · exact hs.once.mem_erase_iff.mp hp'
  · -- its socket is closed, so that it is not registered
    next hfd =>
    refine ⟨?_, hp'⟩
    rintro rfl
    obtain ⟨c', hc', hfd'⟩ := hs.interest p' hp'
    exact hfd (Option.some.inj (hc.symm.trans hc') ▸ hfd')

/-- A client that leaves its slot is neither registered nor looked at any more. -/
theorem free (hs : s.Live) {p i : Nat} {c : SocketContext P} (hc : s.heap p = some c) {pc : Pc}
    (hpc : ∀ p' ∈ pc.clients, p' ∈ s.pc.clients ∧ p' ≠ p) (hdistinct : pc.clients.Nodup) :
    { (s.free p i).hangUp h p c with pc }.Live := by
  have hheap : ∀ p' ≠ p, ((s.free p i).hangUp h p c).heap p' = s.heap p' := by
    intro p' hne
    rw [hangUp_heap]
    exact Function.update_of_ne hne ..
  constructor
  · intro p' hp'
    -- who stays registered is another client
    obtain ⟨hne, hmem⟩ := hs.interest_free hc hp'
    obtain ⟨c', hc', hfd⟩ := hs.interest p' hmem
    exact ⟨c', (hheap p' hne).trans hc', hfd⟩
  · show ((s.free p i).hangUp h p c).interest.Nodup
    unfold hangUp
    split
    · exact hs.once.erase p
    · exact hs.once
  · intro p' hp'
    -- and so is who has yet to be looked at
    obtain ⟨hmem, hne⟩ := hpc p' hp'
    show (((s.free p i).hangUp h p c).heap p').isSome
    rw [hheap p' hne]
    exact hs.pending p' hmem
  · exact hdistinct

/-- The loop goes on to other events. -/
theorem goOn (hs : s.Live) {pc : Pc} {user : U} {history : List Act}
    (hpc : ∀ p ∈ pc.clients, p ∈ s.pc.clients) (hdistinct : pc.clients.Nodup) :
    { s with pc, user, history : ServerLoop U P }.Live :=
  ⟨hs.interest, hs.once, fun p hp => hs.pending p (hpc p hp), hdistinct⟩

/-- A client that the loop looks at is changed, and stays registered only with its socket open. -/
theorem update (hs : s.Live) {p : Nat} {c c' : SocketContext P} {pc : Pc} {user : U}
    {interest : List Nat} {history : List Act} (hc : s.heap p = some c)
    (hsub : interest.Sublist s.interest) (hfd : p ∈ interest → c'.fd = c.fd)
    (hpc : pc.clients = s.pc.clients) :
    { s with
      pc, user, interest, history
      heap := Function.update s.heap p (some c') : ServerLoop U P }.Live := by
  constructor
  · intro p' hp'
    obtain ⟨c₀, hc₀, hfd₀⟩ := hs.interest p' (hsub.subset hp')
    by_cases hne : p' = p
    · -- the client itself keeps its `fd_`, if it stays registered
      subst hne
      obtain rfl := Option.some.inj (hc.symm.trans hc₀)
      exact ⟨c', Function.update_self .., by rw [hfd hp']; exact hfd₀⟩
    · exact ⟨c₀, (Function.update_of_ne hne ..).trans hc₀, hfd₀⟩
  · exact hs.once.sublist hsub
  · intro p' hp'
    -- a changed client is still in the heap
    have hsome := hs.pending p' (hpc ▸ hp')
    by_cases hne : p' = p
    · simp [hne]
    · simpa [hne] using hsome
  · show pc.clients.Nodup
    rw [hpc]
    exact hs.distinct

/-- The end of an event of a client. -/
theorem finish (hs : s.Live) {now : Int} {e : EpollEvent} {p : Nat} {rest : List EpollEvent}
    {rem : Bool} (hpc : s.pc.clients = p :: clientsOf rest)
    (hfinish : s.finish h now e p rest rem = some s') : s'.Live := by
  obtain ⟨hp, hrest⟩ := List.nodup_cons.mp (hpc ▸ hs.distinct)
  rcases finish_cases hfinish with ⟨-, c, i, hc, -, rfl⟩ | ⟨-, rfl⟩
  · refine hs.free hc (fun p' hp' => ?_) (by simpa using hrest)
    have hmem : p' ∈ clientsOf rest := by simpa using hp'
    -- no other event of this round is about the client that goes
    refine ⟨hpc ▸ List.mem_cons_of_mem _ hmem, ?_⟩
    rintro rfl
    exact hp hmem
  · refine hs.goOn (fun p' hp' => ?_) (by simpa using hrest)
    exact hpc ▸ List.mem_cons_of_mem _ (by simpa using hp')

/-- A new client. -/
theorem insert (hs : s.Live) (hslots : s.Slots) {now : Int} {rest : List EpollEvent} {socket : Int}
    (hsocket : 0 < socket) (hpc : s.pc.clients = clientsOf rest) :
    (s.insert h now rest socket).Live := by
  have hrest : (Pc.resume now rest).clients = s.pc.clients := by rw [Pc.clients_resume, hpc]
  unfold ServerLoop.insert
  split
  · exact hs.goOn (fun p hp => hrest ▸ hp) (hrest ▸ hs.distinct)
  · -- the number of the new client is not used yet
    have hnew := hslots.fresh s.allocated le_rfl
    have hne : ∀ p, (s.heap p).isSome → p ≠ s.allocated := by
      rintro p hp rfl
      simp [hnew] at hp
    constructor
    · intro p hp
      -- the registered clients are the old ones and the new one
      rcases List.mem_append.mp hp with hp | hp
      · obtain ⟨c, hc, hfd⟩ := hs.interest p hp
        exact ⟨c, (Function.update_of_ne (hne p (by rw [hc]; rfl)) ..).trans hc, hfd⟩
      · obtain rfl := List.mem_singleton.mp hp
        exact ⟨_, Function.update_self .., hsocket⟩
    · refine List.nodup_append.mpr ⟨hs.once, List.nodup_singleton _, fun p hp p' hp' => ?_⟩
      obtain ⟨c, hc, -⟩ := hs.interest p hp
      rw [List.mem_singleton.mp hp']
      exact hne p (by rw [hc]; rfl)
    · intro p hp
      -- the clients that the loop has yet to look at are old ones
      have hsome := hs.pending p hp
      show (Function.update s.heap s.allocated _ p).isSome
      rwa [Function.update_of_ne (hne p hsome)]
    · exact hs.distinct

/-- One slot of the sweep. -/
theorem sweepSlot (hs : s.Live ∧ s.pc = .wait) {now : Int} {i : Nat}
    (hsweep : s.sweepSlot h now i = some s') : s'.Live ∧ s'.pc = .wait := by
  unfold ServerLoop.sweepSlot at hsweep
  split at hsweep
  · cases hsweep
    exact hs
  · next p hp =>
    obtain ⟨c, hc, rfl⟩ := Option.map_eq_some_iff.mp hsweep
    split
    · -- `timeout_cb` is called before the client is freed
      have htimeout : { s with user := h.timeoutCb s.user c.cli : ServerLoop U P }.Live :=
        ⟨hs.1.interest, hs.1.once, hs.1.pending, hs.1.distinct⟩
      have hpc : (({ s with user := h.timeoutCb s.user c.cli }.free p i).hangUp h p c).pc =
          .wait := (hangUp_pc ..).trans hs.2
      refine ⟨?_, hpc⟩
      have hfree : { ({ s with user := h.timeoutCb s.user c.cli }.free p i).hangUp h p c with
          pc := .wait : ServerLoop U P }.Live :=
        htimeout.free hc (fun p' hp' => by cases hp') List.nodup_nil
      rwa [← hpc] at hfree
    · exact hs

/-- Every turn keeps it. -/
theorem step (hs : s.Live) (hslots : s.Slots) (hnext : s.next h l = some s') : s'.Live := by
  rcases next_cases hnext with ⟨now, -, hpc, hsweep⟩ | ⟨now, events, -, -, hevents, rfl⟩ |
    ⟨now, e, rest, -, hpc, hevent⟩ | ⟨now, rest, socket, -, hpc, ⟨hsocket, rfl⟩ | rfl⟩ |
    ⟨now, e, p, rest, rem, r, -, hpc, hrecv⟩ | ⟨user, -, rfl⟩
  · exact (Slots.foldlM_sweepSlot (fun hs => sweepSlot hs) ⟨hs, hpc⟩ hsweep).1
  · -- `epoll_wait` reports registered clients only
    obtain ⟨hmem, hnodup⟩ := clientsOf_of_mayReturn hevents
    refine ⟨hs.interest, hs.once, fun p hp => ?_, by simpa using hnodup⟩
    obtain ⟨c, hc, -⟩ := hs.interest p (hmem p (by simpa using hp))
    simp [hc]
  · have hclients : s.pc.clients = clientsOf (e :: rest) := by rw [hpc]; rfl
    rcases onEvent_cases hevent with ⟨hsource, rfl⟩ | ⟨p, c, hsource, hc, -, rfl⟩ |
      ⟨p, hsource, -, hfinish⟩
    · -- the listening socket is no client
      have hrest : clientsOf (e :: rest) = clientsOf rest := by
        simp [clientsOf, hsource]
      have hgoOn : (if e.epollIn = true then Pc.accepting now rest else .resume now rest).clients =
          s.pc.clients := by
        rw [hclients, hrest]
        split
        · rfl
        · exact Pc.clients_resume now rest
      exact hs.goOn (fun p hp => hgoOn ▸ hp) (hgoOn ▸ hs.distinct)
    · -- the client of the event is read from next
      refine hs.update hc (.refl _) (fun _ => rfl) ?_
      rw [hclients]
      simp [Pc.clients, clientsOf, hsource]
    · refine hs.finish ?_ hfinish
      rw [hclients]
      simp [clientsOf, hsource]
  · exact hs.insert hslots hsocket (by rw [hpc]; rfl)
  · have hrest : (Pc.resume now rest).clients = s.pc.clients := by rw [Pc.clients_resume, hpc]; rfl
    exact hs.goOn (fun p hp => hrest ▸ hp) (hrest ▸ hs.distinct)
  · have hclients : s.pc.clients = p :: clientsOf rest := by rw [hpc]; rfl
    rcases onRecv_cases hrecv with ⟨bytes, c, read, -, hc, -, ⟨-, rfl⟩ | ⟨-, rfl⟩⟩ |
      ⟨rem', -, hfinish⟩
    · -- a client whose request is dispatched is not registered any more
      refine hs.update hc List.erase_sublist (fun hp => ?_) hclients.symm
      exact absurd hp hs.once.not_mem_erase
    · exact hs.goOn (fun _ hp => hp) hs.distinct
    · -- the event of the client ends
      have hs₁ : { s with history := s.history ++ [Act.recv p] : ServerLoop U P }.Live :=
        ⟨hs.interest, hs.once, hs.pending, hs.distinct⟩
      exact hs₁.finish hclients hfinish
  · exact hs.goOn (fun _ hp => hp) hs.distinct

end Live

/-- The invariant holds in every reachable state. -/
theorem slots_of_reachable {user : U} (hs : (serverLoop h user).Reachable s) : s.Slots := by
  refine hs.invariant (P := Slots) ?_ fun s l s' hs hnext => hs.step hnext
  constructor <;> simp [serverLoop, start]

/-- No freed client is registered or looked at, in any reachable state. -/
theorem live_of_reachable {user : U} (hs : (serverLoop h user).Reachable s) : s.Live := by
  refine (hs.invariant (P := fun s => s.Slots ∧ s.Live) ⟨?_, ?_⟩ ?_).2
  · constructor <;> simp [serverLoop, start]
  · constructor <;> simp [serverLoop, start, Pc.clients]
  · exact fun s l s' hs hnext => ⟨hs.1.step hnext, hs.2.step hs.1 hnext⟩

/-! ## Every turn is defined -/

theorem finish_isSome (hs : s.Slots) {now : Int} {e : EpollEvent} {p : Nat}
    {rest : List EpollEvent} {rem : Bool} (hp : (s.heap p).isSome) :
    (s.finish h now e p rest rem).isSome := by
  obtain ⟨c, hc⟩ := Option.isSome_iff_exists.mp hp
  obtain ⟨i, -, hi, -⟩ := hs.slot p c hc
  unfold finish
  split
  · simp [remove, hc, hi]
  · rfl

theorem sweepSlot_isSome (hs : s.Slots) (now : Int) (i : Nat) :
    (s.sweepSlot h now i).isSome := by
  unfold sweepSlot
  split
  · rfl
  · next p hp =>
    obtain ⟨c, hc, -⟩ := hs.entry i p hp
    simp [hc]

theorem foldlM_sweepSlot_isSome (hs : s.Slots) (now : Int) (is : List Nat) :
    (is.foldlM (sweepSlot h now) s).isSome := by
  induction is generalizing s with
  | nil => rfl
  | cons i is ih =>
    obtain ⟨s₁, hs₁⟩ := Option.isSome_iff_exists.mp (sweepSlot_isSome (h := h) hs now i)
    rw [List.foldlM_cons, hs₁]
    exact ih (hs.sweepSlot hs₁)

/-- The turns of a reachable state are defined: the loop stops only where a callback stops it. -/
theorem next_isSome_of_reachable {user : U} (hs : (serverLoop h user).Reachable s) :
    match s.pc with
    | .wait => ∀ now, (s.next h (.wait now none)).isSome
    | .event .. => (s.next h .event).isSome
    | .accepting .. => ∀ socket, (s.next h (.accept socket)).isSome
    | .reading _ _ p _ _ =>
      (∀ r ∈ [Recv.closed, .failed, .again], (s.next h (.recv r)).isSome) ∧
      ∀ bytes, 0 < bytes.length ∧ bytes.length ≤ recvbufSize →
        ((s.next h (.recv (.data bytes))).isSome ↔
          ∃ c, s.heap p = some c ∧ (h.readCb s.user c.cli bytes).isSome) := by
  have hslots := slots_of_reachable hs
  have hlive := live_of_reachable hs
  split
  · next hpc =>
    intro now
    simp only [next, hpc]
    -- a sweep finds no slot with a freed client
    exact foldlM_sweepSlot_isSome hslots now _
  · next now e rest hpc =>
    simp only [next, hpc, onEvent]
    split
    · rfl
    · next p hsource =>
      -- the client of the event has not been freed
      have hp : (s.heap p).isSome := by
        apply hlive.pending p
        simp [hpc, Pc.clients, clientsOf, hsource]
      obtain ⟨c, hc⟩ := Option.isSome_iff_exists.mp hp
      rw [hc, Option.bind_some]
      split
      · rfl
      · exact finish_isSome hslots hp
  · next now rest hpc =>
    intro socket
    simp only [next, hpc]
    split <;> rfl
  · next now e p rest rem hpc =>
    have hp : (s.heap p).isSome := hlive.pending p (by simp [hpc, Pc.clients])
    have hslots' : { s with history := s.history ++ [Act.recv p] : ServerLoop U P }.Slots :=
      hslots.of_frame rfl rfl rfl fun _ => rfl
    simp only [next, hpc]
    constructor
    · intro r hr
      simp only [List.mem_cons, List.not_mem_nil, or_false] at hr
      -- without data, the event of the client ends
      rcases hr with rfl | rfl | rfl <;> exact finish_isSome hslots' hp
    · intro bytes hbytes
      obtain ⟨c, hc⟩ := Option.isSome_iff_exists.mp hp
      -- with data, `read_cb` decides
      simp [onRecv, hbytes, onData, hc]

end ServerLoop

/-- In every reachable state of the loop, whatever the callbacks return, `accept_size` counts the
entries of `accept_queue`, every client is in the slot that its `index_` names, and a client that is
accepted below the limit finds a free slot. -/
theorem slotsConsistent_of_reachable {U P : Type*} {h : ServerHandle U P} {user : U}
    {s : ServerLoop U P} (hs : (serverLoop h user).Reachable s) : s.SlotsConsistent :=
  (ServerLoop.slots_of_reachable hs).consistent

/-- Callbacks of a server whose requests are never complete. -/
def silentHandle : ServerHandle Unit Unit where
  acceptCb _ _ := ((), some ())
  readCb _ _ _ := some ((), 0)
  closeCb _ _ := ()
  timeoutCb _ _ := ()
  readTimeout := 15
  writeTimeout := 5

/-- The turns in which a client is accepted at the time `100`. -/
def acceptOne : List (Label Unit) :=
  [.wait 100 (some [⟨.listenSocket, true, false, false⟩]), .event, .accept 7, .accept (-1)]

/-- The table with one client. -/
theorem slotsConsistent_of_reachable_acceptOne :
    ∃ s : ServerLoop Unit Unit, (serverLoop silentHandle ()).exec (.start ()) acceptOne = some s ∧
      s.acceptQueue 0 = some 0 ∧ s.SlotsConsistent := by
  obtain ⟨s, hexec, hqueue⟩ : ∃ s, (serverLoop silentHandle ()).exec (.start ()) acceptOne =
      some s ∧ s.acceptQueue 0 = some 0 := ⟨_, rfl, rfl⟩
  exact ⟨s, hexec, hqueue, slotsConsistent_of_reachable (TransitionSystem.reachable_of_exec hexec)⟩

end MosqCluster.Server
