import MosqCluster.Server.SlotTable

/-!
# Idle connections

The time-out sweep of the event loop runs where `epoll_wait` returns a negative number, and not
where its time limit elapses, which returns zero. So an idle turn reaps nobody, and leaves no client
past its deadline exactly if there was none.

The write deadline plays no part: it is only set for a client whose `read_cb` has returned a
negative value, and that client is freed in the same event.

## Main definitions

* `ServerLoop.Reaped`: no client in the table is past a deadline;
* `ServerLoop.HeardFrom`: every client was accepted or readable within the read time limit.

## Main results

* `reaped_iff_heardFrom`: what an idle turn leaves behind;
* `ServerLoop.sweep_spec`: which clients a sweep leaves, of those in any slot.
-/

namespace MosqCluster.Server

namespace ServerLoop

variable {U P : Type*} {h : ServerHandle U P} {s s' : ServerLoop U P} {l : Label U}

/-- No client in the table, whatever its slot, is past its read or its write deadline. -/
def Reaped (s : ServerLoop U P) (now : Int) : Prop :=
  ∀ i p c, s.acceptQueue i = some p → s.heap p = some c → ¬ Expired now c

/-- Every client was accepted, or was readable for the last time, within the read time limit. -/
def HeardFrom (h : ServerHandle U P) (s : ServerLoop U P) (now : Int) : Prop :=
  ∀ p c, s.heap p = some c → c.readTimestamp > 0 → now ≤ c.readTimestamp + h.readTimeout

/-! ## Deadlines -/

/-- A client whose socket is open has a read deadline and no write deadline. -/
def Waits (h : ServerHandle U P) (c : SocketContext P) : Prop :=
  c.fd > 0 ∧ c.writeTimestamp = -1 ∧ c.readTimeout = c.readTimestamp + h.readTimeout

/-- Every client waits, unless it is the one that is read from and about to be removed. -/
def Deadlines (h : ServerHandle U P) (s : ServerLoop U P) : Prop :=
  ∀ p c, s.heap p = some c → Waits h c ∨ ∃ now e rest, s.pc = .reading now e p rest true

namespace Deadlines

/-- Outside of an event, every client waits. -/
theorem waits (hs : s.Deadlines h) (hpc : ∀ now e p rest, s.pc ≠ .reading now e p rest true)
    {p : Nat} {c : SocketContext P} (hc : s.heap p = some c) : Waits h c := by
  rcases hs p c hc with hwaits | ⟨now, e, rest, hpc'⟩
  · exact hwaits
  · exact absurd hpc' (hpc now e p rest)

/-- Clients may go away, and the loop may go on to another statement. -/
theorem of_waits (hs : ∀ p c, s.heap p = some c → Waits h c)
    (hheap : ∀ p c, s'.heap p = some c → s.heap p = some c) : s'.Deadlines h :=
  fun p c hc => .inl (hs p c (hheap p c hc))

end Deadlines

/-- A slot of the sweep only takes clients away. -/
theorem heap_sweepSlot {now : Int} {i : Nat} (hsweep : s.sweepSlot h now i = some s') {p : Nat}
    {c : SocketContext P} (hc : s'.heap p = some c) : s.heap p = some c := by
  unfold sweepSlot at hsweep
  split at hsweep
  · cases hsweep
    exact hc
  · obtain ⟨c', -, rfl⟩ := Option.map_eq_some_iff.mp hsweep
    split at hc
    · -- what the heap still has after the removal it had before
      rw [hangUp_heap] at hc
      exact (heap_of_free hc).2
    · exact hc

namespace Deadlines

/-- The end of the event of a client. -/
theorem finish (hs : s.Deadlines h) {now : Int} {e : EpollEvent} {p : Nat}
    {rest : List EpollEvent} {rem : Bool}
    (hrem : ∀ now e p' rest, s.pc = .reading now e p' rest true → p' = p ∧ rem = true)
    (hfinish : s.finish h now e p rest rem = some s') : s'.Deadlines h := by
  intro p' c' hc'
  rcases finish_cases hfinish with ⟨-, c, i, -, -, rfl⟩ | ⟨hkeep, rfl⟩
  · have hc' : ((s.free p i).hangUp h p c).heap p' = some c' := hc'
    rw [hangUp_heap] at hc'
    -- the client that goes is the only one whose deadlines were off
    obtain ⟨hne, hc'⟩ := heap_of_free hc'
    rcases hs p' c' hc' with hwaits | ⟨_, _, _, hpc⟩
    · exact .inl hwaits
    · exact absurd (hrem _ _ _ _ hpc).1 hne
  · rcases hs p' c' hc' with hwaits | ⟨_, _, _, hpc⟩
    · exact .inl hwaits
    · -- it is not kept
      simp [(hrem _ _ _ _ hpc).2] at hkeep

/-- Every turn keeps the deadlines. -/
theorem step (hs : s.Deadlines h) (hnext : s.next h l = some s') : s'.Deadlines h := by
  rcases next_cases hnext with ⟨now, -, hpc, hsweep⟩ | ⟨now, events, -, hpc, -, rfl⟩ |
    ⟨now, e, rest, -, hpc, hevent⟩ | ⟨now, rest, socket, -, hpc, ⟨hsocket, rfl⟩ | rfl⟩ |
    ⟨now, e, p, rest, rem, r, -, hpc, hrecv⟩ | ⟨user, -, rfl⟩
  · have hwaits : ∀ p c, s.heap p = some c → Waits h c := fun p c =>
      hs.waits fun _ _ _ _ => by rw [hpc]; nofun
    -- a sweep changes no client that it leaves
    refine of_waits hwaits fun p c hc => ?_
    exact Slots.foldlM_sweepSlot (Q := fun s' => s'.heap p = some c → s.heap p = some c)
      (fun hQ hslot hc => hQ (heap_sweepSlot hslot hc)) id hsweep hc
  · exact of_waits (fun p c => hs.waits fun _ _ _ _ => by rw [hpc]; nofun) fun _ _ hc => hc
  · have hwaits : ∀ p c, s.heap p = some c → Waits h c := fun p c =>
      hs.waits fun _ _ _ _ => by rw [hpc]; nofun
    rcases onEvent_cases hevent with ⟨-, rfl⟩ | ⟨p, c, -, hc, -, rfl⟩ | ⟨p, -, -, hfinish⟩
    · exact of_waits hwaits fun _ _ hc => hc
    · intro p' c' hc'
      by_cases hp : p' = p
      · -- the client that is readable gets a new read deadline
        obtain rfl : readable h c now = c' := by simpa [hp] using hc'
        obtain ⟨hfd, hwrite, -⟩ := hwaits p c hc
        exact .inl ⟨hfd, hwrite, rfl⟩
      · exact .inl (hwaits p' c' (by simpa [hp] using hc'))
    · exact hs.finish (fun _ _ _ _ hpc' => by rw [hpc] at hpc'; cases hpc') hfinish
  · have hwaits : ∀ p c, s.heap p = some c → Waits h c := fun p c =>
      hs.waits fun _ _ _ _ => by rw [hpc]; nofun
    unfold insert
    split
    · exact of_waits hwaits fun _ _ hc => hc
    · intro p c hc
      by_cases hp : p = s.allocated
      · -- a new client has its first read deadline
        obtain rfl : newClient h now socket _ _ = c := by simpa [hp] using hc
        exact .inl ⟨hsocket, rfl, rfl⟩
      · exact .inl (hwaits p c (by simpa [hp] using hc))
  · exact of_waits (fun p c => hs.waits fun _ _ _ _ => by rw [hpc]; nofun) fun _ _ hc => hc
  · rcases onRecv_cases hrecv with ⟨bytes, c, read, -, hc, -, ⟨-, rfl⟩ | ⟨-, rfl⟩⟩ |
      ⟨rem', hr, hfinish⟩
    · intro p' c' hc'
      by_cases hp : p' = p
      · -- the client whose request is dispatched is about to be removed
        exact .inr ⟨now, e, rest, by rw [hp]; rfl⟩
      · rcases hs p' c' (by simpa [dispatch, hp] using hc') with hwaits | ⟨_, _, _, hpc'⟩
        · exact .inl hwaits
        · rw [hpc] at hpc'
          cases hpc'
          exact absurd rfl hp
    · exact fun p' c' hc' => hs p' c' hc'
    · -- the event of the client ends
      have hs₁ : { s with history := s.history ++ [Act.recv p] : ServerLoop U P }.Deadlines h :=
        fun p' c' hc' => hs p' c' hc'
      refine hs₁.finish (fun _ _ _ _ hpc' => ?_) hfinish
      have hpc' : s.pc = _ := hpc'
      rw [hpc] at hpc'
      cases hpc'
      rcases hr with ⟨-, rfl⟩ | ⟨-, rfl⟩ | ⟨-, rfl⟩ <;> exact ⟨rfl, rfl⟩
  · exact fun p c hc => hs p c hc

end Deadlines

/-- The deadlines are kept in every reachable state. -/
theorem deadlines_of_reachable {user : U} (hs : (serverLoop h user).Reachable s) :
    s.Deadlines h := by
  refine hs.invariant (P := Deadlines h) ?_ fun s l s' hs hnext => hs.step hnext
  intro p c hc
  cases hc

/-! ## Sweeps -/

/-- One slot of the sweep frees the client in it, if it is past a deadline. -/
theorem sweepSlot_spec (hs : s.Slots) {now : Int} {j : Nat}
    (hsweep : s.sweepSlot h now j = some s') (i p : Nat) (c : SocketContext P) :
    (s'.acceptQueue i = some p ∧ s'.heap p = some c) ↔
      (s.acceptQueue i = some p ∧ s.heap p = some c) ∧ (i = j → ¬ Expired now c) := by
  unfold sweepSlot at hsweep
  split at hsweep
  · next hfree =>
    cases hsweep
    -- the slot is free
    refine ⟨fun hc => ⟨hc, ?_⟩, And.left⟩
    rintro rfl
    rw [hfree] at hc
    cases hc.1
  · next p₀ hp₀ =>
    obtain ⟨c₀, hc₀, rfl⟩ := Option.map_eq_some_iff.mp hsweep
    by_cases hlate : Expired now c₀
    · rw [if_pos hlate, hangUp_acceptQueue, hangUp_heap]
      by_cases hij : i = j
      · -- the slot is cleared, and its client was past a deadline
        subst hij
        have hcleared : ∀ q : Nat,
            (free { s with user := h.timeoutCb s.user c₀.cli } p₀ i).acceptQueue i ≠ some q := by
          simp [free]
        refine ⟨fun hc => absurd hc.1 (hcleared p), ?_⟩
        rintro ⟨⟨hp, hc⟩, hnot⟩
        obtain rfl := Option.some.inj (hp₀.symm.trans hp)
        obtain rfl := Option.some.inj (hc₀.symm.trans hc)
        exact absurd hlate (hnot rfl)
      · have hqueue : (free { s with user := h.timeoutCb s.user c₀.cli } p₀ j).acceptQueue i =
            s.acceptQueue i := Function.update_of_ne hij ..
        rw [hqueue]
        refine ⟨fun hc => ⟨⟨hc.1, (heap_of_free hc.2).2⟩, fun heq => absurd heq hij⟩, ?_⟩
        rintro ⟨⟨hp, hc⟩, -⟩
        -- the client of another slot is another client
        have hne : p ≠ p₀ := by
          rintro rfl
          obtain ⟨c₁, hc₁, hi⟩ := hs.entry i p hp
          obtain ⟨c₂, hc₂, hj⟩ := hs.entry j p hp₀
          obtain rfl := Option.some.inj (hc₁.symm.trans hc₂)
          exact hij (Option.some.inj (hi.symm.trans hj))
        exact ⟨hp, (Function.update_of_ne hne ..).trans hc⟩
    · -- the client in the slot is in time
      rw [if_neg hlate]
      refine ⟨fun hc => ⟨hc, ?_⟩, And.left⟩
      rintro rfl
      obtain rfl := Option.some.inj (hp₀.symm.trans hc.1)
      rwa [← Option.some.inj (hc₀.symm.trans hc.2)]

/-- A sweep frees the clients that are past a deadline and in a slot below `accept_size`. Those in
higher slots are passed over. -/
theorem sweep_spec (hs : s.Slots) {now : Int} (hsweep : s.sweep h now = some s') (i p : Nat)
    (c : SocketContext P) :
    (s'.acceptQueue i = some p ∧ s'.heap p = some c) ↔
      (s.acceptQueue i = some p ∧ s.heap p = some c) ∧
        (i < s.acceptSize → ¬ Expired now c) := by
  -- by induction on the slots that are looked at
  have hslots : ∀ is : List Nat, ∀ s, s.Slots → is.foldlM (sweepSlot h now) s = some s' →
      ((s'.acceptQueue i = some p ∧ s'.heap p = some c) ↔
        (s.acceptQueue i = some p ∧ s.heap p = some c) ∧ (i ∈ is → ¬ Expired now c)) := by
    intro is
    induction is with
    | nil =>
      rintro s - hsweep
      cases hsweep
      simp
    | cons j is ih =>
      intro s hs hsweep
      obtain ⟨s₁, hslot, hrest⟩ := Option.bind_eq_some_iff.mp hsweep
      rw [ih s₁ (hs.sweepSlot hslot) hrest, sweepSlot_spec hs hslot, List.mem_cons, and_assoc,
        or_imp]
  rw [hslots _ s hs hsweep, List.mem_range]
  have : i < s.acceptSize.toNat ↔ (i : Int) < s.acceptSize := by omega
  rw [this]

end ServerLoop

/-! ## Idle turns -/

/-- After a turn in which `epoll_wait` reports no event, no client is past a deadline if and only if
every client had been heard from within the read time limit. -/
theorem reaped_iff_heardFrom {U P : Type*} {h : ServerHandle U P} {user : U}
    {s s' : ServerLoop U P} {now : Int} (hs : (serverLoop h user).Reachable s)
    (hidle : s.next h (.wait now (some [])) = some s') :
    s'.Reaped now ↔ s.HeardFrom h now := by
  obtain ⟨hpc, rfl⟩ : s.pc = .wait ∧ s' = { s with pc := .wait } := by
    rcases ServerLoop.next_cases hidle with ⟨_, hl, -⟩ | ⟨_, _, hl, hpc, -, rfl⟩ |
      ⟨_, _, _, hl, -⟩ | ⟨_, _, _, hl, -⟩ | ⟨_, _, _, _, _, _, hl, -⟩ | ⟨_, hl, -⟩ <;> cases hl
    exact ⟨hpc, rfl⟩
  have hslots := ServerLoop.slots_of_reachable hs
  -- between two events every client waits, so that only the read deadline counts
  have hexpired : ∀ p c, s.heap p = some c →
      (ServerLoop.Expired now c ↔ c.readTimestamp > 0 ∧ now > c.readTimestamp + h.readTimeout) := by
    intro p c hc
    obtain ⟨-, hwrite, hread⟩ := (ServerLoop.deadlines_of_reachable hs).waits
      (fun _ _ _ _ => by rw [hpc]; nofun) hc
    rw [ServerLoop.Expired, hwrite, hread]
    omega
  constructor
  · intro hreaped p c hc hpos
    obtain ⟨i, -, -, hi⟩ := hslots.slot p c hc
    by_contra hlate
    exact hreaped i p c hi hc ((hexpired p c hc).mpr ⟨hpos, by omega⟩)
  · rintro hheard i p c - hc hlate
    obtain ⟨hpos, hlate⟩ := (hexpired p c hc).mp hlate
    have := hheard p c hc hpos
    omega

/-- A client that was accepted ten seconds ago is within its time limit. -/
theorem reaped_iff_heardFrom_acceptOne :
    ∃ s s' : ServerLoop Unit Unit, s.acceptQueue 0 = some 0 ∧
      s.next silentHandle (.wait 110 (some [])) = some s' ∧
      (s'.Reaped 110 ↔ s.HeardFrom silentHandle 110) := by
  obtain ⟨s, hexec, hqueue, hpc⟩ : ∃ s, (serverLoop silentHandle ()).exec (.start ()) acceptOne =
      some s ∧ s.acceptQueue 0 = some 0 ∧ s.pc = .wait := ⟨_, rfl, rfl, rfl⟩
  have hidle : s.next silentHandle (.wait 110 (some [])) = some { s with pc := .wait } := by
    simp [ServerLoop.next, hpc, ServerLoop.MayReturn, Pc.resume]
  exact ⟨s, _, hqueue, hidle, reaped_iff_heardFrom (TransitionSystem.reachable_of_exec hexec) hidle⟩

/-- A client that was accepted a hundred seconds ago is still there after an idle turn. -/
theorem not_reaped :
    ¬ ∀ (s s' : ServerLoop Unit Unit) (now : Int), (serverLoop silentHandle ()).Reachable s →
      s.next silentHandle (.wait now (some [])) = some s' → s'.Reaped now := by
  intro hreaped
  obtain ⟨s, hexec, hqueue, hlate⟩ : ∃ s, (serverLoop silentHandle ()).exec (.start ())
      (acceptOne ++ [.wait 200 (some [])]) = some s ∧ s.acceptQueue 0 = some 0 ∧
        (s.heap 0).any fun c => decide (ServerLoop.Expired 200 c) := ⟨_, rfl, rfl, rfl⟩
  obtain ⟨c, hc, hlate⟩ := (Option.any_eq_true ..).mp hlate
  obtain ⟨s₀, hexec₀, hidle⟩ : ∃ s₀, (serverLoop silentHandle ()).exec (.start ()) acceptOne =
      some s₀ ∧ s₀.next silentHandle (.wait 200 (some [])) = some s := by
    rw [← hexec]
    exact ⟨_, rfl, rfl⟩
  exact hreaped s₀ s 200 (TransitionSystem.reachable_of_exec hexec₀) hidle 0 0 c hqueue hc
    (of_decide_eq_true hlate)

end MosqCluster.Server
