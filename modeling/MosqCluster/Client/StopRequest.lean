import MosqCluster.Client.Model

/-!
# Whether a stop request is kept

`Stop` sets `state_` to `Stopping` and joins both threads. `SubscribeLoop` sets `state_` to
`Running` after a successful connect and to `Reconnecting` after its inner loop without looking at
it, so a request that lands while the client is connected, or is followed by a successful connect,
is overwritten. Where it lands elsewhere, it stands until both threads have left their loops.

## Main definitions

* `StopNeverLost`: what a stop request promises, for a system of client steps;
* `StopLandsOffline`: the steps after which no write of `SubscribeLoop` is pending.

## Main results

* `stopNeverLost_of_landsOffline`: the promise holds in every run of such steps;
* `not_stopNeverLost`: it does not hold in every run;
* `stop_lost_of_not_landsOffline`: any other step can be followed by the loss of the request.
-/

namespace MosqCluster

namespace Client

/-- From the moment `Stop` has set `state_` to `Stopping`, it has that value until both loops have
been left. -/
def StopStands (c : Client) : Prop :=
  c.stopper ≠ .idle → ¬ (c.subscriber = .exited ∧ c.publisher = .exited) → c.state = .stopping

end Client

/-- A stop request is never lost: it stands in every reachable state, and once `SubscribeLoop`
comes to its loop condition after the request, it never connects or reconnects again. -/
def StopNeverLost (T : TransitionSystem Client Label) : Prop :=
  (∀ c, T.Reachable c → c.StopStands) ∧
  ∀ c c' reconnect, T.Reachable c → c.stopper ≠ .idle → c.subscriber = .test reconnect →
    T.Run c c' → ∀ reconnect', c'.subscriber ≠ .connecting reconnect'

/-- `SubscribeLoop` is not between a successful connect and the write that follows its inner
loop. -/
def SubscribePc.offline : SubscribePc → Bool
  | .test _ | .connecting _ | .sleeping _ | .exited => true
  | .connected | .looping | .looped _ | .dropped => false

/-- The stop request comes while `SubscribeLoop` is offline, and a connect that is under way when
it comes fails. -/
def StopLandsOffline (c : Client) : Label → Prop
  | .stop => c.subscriber.offline
  | .connectReturns rc => c.stopper ≠ .idle → rc ≠ MOSQ_ERR_SUCCESS
  | _ => True

instance (c : Client) (l : Label) : Decidable (StopLandsOffline c l) :=
  match l with
  | .stop => inferInstanceAs (Decidable (c.subscriber.offline = true))
  | .connectReturns rc => inferInstanceAs (Decidable (c.stopper ≠ .idle → rc ≠ MOSQ_ERR_SUCCESS))
  | .issue _ | .push _ | .subscribeTest | .setRunning | .loopReturns _ | .loopTest
  | .setReconnecting | .subscribeWakes | .publishTest | .runningTest | .publishWakes | .get
  | .waitReturns _ | .run _ | .delete | .joinPublisher | .joinSubscriber | .setStopped =>
    .isTrue trivial

namespace Client

variable {c c' : Client} {l : Label}

/-! ## What a step of each thread leaves alone -/

/-- The callers of `Publish`, `Subscribe` and `Unsubscribe` touch the queue only. -/
theorem issue_frame {r : Request} (h : c.issue r = some c') :
    c'.state = c.state ∧ c'.subscriber = c.subscriber ∧ c'.publisher = c.publisher ∧
      c'.stopper = c.stopper := by
  obtain ⟨command, -, rfl⟩ := Option.map_eq_some_iff.mp h
  exact ⟨rfl, rfl, rfl, rfl⟩

/-- The push touches the queue only. -/
theorem push_frame {i : Nat} (h : c.push i = some c') :
    c'.state = c.state ∧ c'.subscriber = c.subscriber ∧ c'.publisher = c.publisher ∧
      c'.stopper = c.stopper := by
  obtain ⟨command, -, rfl⟩ := Option.map_eq_some_iff.mp h
  exact ⟨rfl, rfl, rfl, rfl⟩

/-- `TaskQueue::Get` moves `PublishLoop` on and touches the queue only. -/
theorem pop_frame (c : Client) (empty : PublishPc) :
    (c.pop empty).state = c.state ∧ (c.pop empty).subscriber = c.subscriber ∧
      (c.pop empty).stopper = c.stopper := by
  unfold pop
  split <;> exact ⟨rfl, rfl, rfl⟩

/-- `PublishLoop` reads `state_` and never writes it, and takes no step once it has been left. -/
theorem publishStep_frame (h : c.publishStep l c.publisher = some c') :
    c'.state = c.state ∧ c'.subscriber = c.subscriber ∧ c'.stopper = c.stopper ∧
      c.publisher ≠ .exited := by
  unfold publishStep at h
  split at h <;> simp only [Option.some.injEq, reduceCtorEq] at h <;> subst h
  case h_5 ok hpc =>
    cases ok
    · simp [hpc]
    · simpa [hpc] using c.pop_frame .test
  all_goals simp_all [pop_frame]

/-- While `SubscribeLoop` is offline and no connect succeeds, it does not write `state_`; a request
it meets at its loop condition makes it leave. -/
theorem subscribeStep_offline (h : c.subscribeStep l c.subscriber = some c')
    (hoff : c.subscriber.offline) (hfails : ∀ rc, l = .connectReturns rc → rc ≠ MOSQ_ERR_SUCCESS) :
    c'.state = c.state ∧ c'.publisher = c.publisher ∧ c'.stopper = c.stopper ∧
      c'.subscriber.offline ∧ c.subscriber ≠ .exited ∧
      (c.state = .stopping → ∀ reconnect, c.subscriber = .test reconnect →
        c'.subscriber = .exited) := by
  unfold subscribeStep at h
  split at h <;> simp only [Option.some.injEq, reduceCtorEq] at h <;> subst h
  case h_1 reconnect hpc =>
    by_cases hstate : c.state = .stopping <;> simp [hpc, hstate, SubscribePc.offline]
  case h_2 rc reconnect hpc =>
    simp [hpc, hfails rc rfl, SubscribePc.offline]
  case h_7 reconnect hpc => simp [hpc, SubscribePc.offline]
  all_goals simp_all [SubscribePc.offline]

/-! ## The invariant -/

/-- What holds in every run in which the request lands offline. -/
structure StopKept (c : Client) : Prop where
  /-- `PublishLoop` has been left when its thread is joined. -/
  publisherLeft : c.stopper ≠ .idle → c.stopper ≠ .joiningPublisher → c.publisher = .exited
  /-- `SubscribeLoop` has been left when its thread is joined. -/
  subscriberLeft : c.stopper = .joined ∨ c.stopper = .returned → c.subscriber = .exited
  /-- After the request `SubscribeLoop` stays offline. -/
  offline : c.stopper ≠ .idle → c.subscriber.offline
  /-- The request stands until both threads are joined. -/
  stands : c.stopper ≠ .idle → c.stopper ≠ .returned → c.state = .stopping

/-- A step that leaves the program counters and `state_` alone keeps the invariant. -/
theorem StopKept.of_frame (hc : c.StopKept)
    (h : c'.state = c.state ∧ c'.subscriber = c.subscriber ∧ c'.publisher = c.publisher ∧
      c'.stopper = c.stopper) : c'.StopKept := by
  obtain ⟨hstate, hsub, hpub, hstop⟩ := h
  constructor
  · simpa [hstop, hpub] using hc.publisherLeft
  · simpa [hstop, hsub] using hc.subscriberLeft
  · simpa [hstop, hsub] using hc.offline
  · simpa [hstop, hstate] using hc.stands

/-- A step of `SubscribeLoop` keeps the invariant. -/
theorem StopKept.subscribeStep (hc : c.StopKept) (hok : StopLandsOffline c l)
    (h : c.subscribeStep l c.subscriber = some c') : c'.StopKept := by
  by_cases hidle : c.stopper = .idle
  · -- nothing is promised before the request, and the step does not make it
    have hstop : c'.stopper = .idle := by
      unfold Client.subscribeStep at h
      split at h <;> simp only [Option.some.injEq, reduceCtorEq] at h <;> subst h <;> exact hidle
    constructor <;> simp [hstop]
  · have hfails : ∀ rc, l = .connectReturns rc → rc ≠ MOSQ_ERR_SUCCESS := by
      rintro rc rfl
      exact hok hidle
    obtain ⟨hstate, hpub, hstop, hoff, hleft, -⟩ :=
      subscribeStep_offline h (hc.offline hidle) hfails
    constructor
    · simpa [hstop, hpub] using hc.publisherLeft
    · intro hjoined
      exact absurd (hc.subscriberLeft (hstop ▸ hjoined)) hleft
    · exact fun _ => hoff
    · simpa [hstop, hstate] using hc.stands

/-- A step of `PublishLoop` keeps the invariant. -/
theorem StopKept.publishStep (hc : c.StopKept)
    (h : c.publishStep l c.publisher = some c') : c'.StopKept := by
  obtain ⟨hstate, hsub, hstop, hleft⟩ := publishStep_frame h
  constructor
  · rw [hstop]
    exact fun hidle hjoining => absurd (hc.publisherLeft hidle hjoining) hleft
  · simpa [hstop, hsub] using hc.subscriberLeft
  · simpa [hstop, hsub] using hc.offline
  · simpa [hstop, hstate] using hc.stands

/-- A step of `Stop` keeps the invariant. -/
theorem StopKept.stopStep (hc : c.StopKept) (hok : StopLandsOffline c l)
    (h : c.stopStep l c.stopper = some c') : c'.StopKept := by
  rcases stopStep_cases h with
    ⟨rfl, hpc, rfl⟩ | ⟨-, hpc, hexited, rfl⟩ | ⟨-, hpc, hexited, rfl⟩ | ⟨-, hpc, rfl⟩
  · constructor <;> simp
    exact hok
  · constructor <;> simp [hexited]
    · exact hc.offline (by simp [hpc])
    · exact hc.stands (by simp [hpc]) (by simp [hpc])
  · have hpub := hc.publisherLeft (by simp [hpc]) (by simp [hpc])
    constructor <;> simp [hexited, hpub, SubscribePc.offline]
    exact hc.stands (by simp [hpc]) (by simp [hpc])
  · have hpub := hc.publisherLeft (by simp [hpc]) (by simp [hpc])
    have hsub := hc.subscriberLeft (.inl hpc)
    constructor <;> simp [hpub, hsub, SubscribePc.offline]

/-- A step that meets the condition keeps the invariant. -/
theorem StopKept.step (hc : c.StopKept) (hok : StopLandsOffline c l) (h : c.next l = some c') :
    c'.StopKept := by
  rcases next_cases h with ⟨r, -, h⟩ | ⟨i, -, h⟩ | h | h | h
  · exact hc.of_frame (issue_frame h)
  · exact hc.of_frame (push_frame h)
  · exact hc.subscribeStep hok h
  · exact hc.publishStep h
  · exact hc.stopStep hok h

/-- The invariant holds in every run whose steps meet the condition. -/
theorem stopKept_of_reachable (h : (client.restrict StopLandsOffline).Reachable c) : c.StopKept :=
  TransitionSystem.Reachable.invariant_restrict (T := client)
    (by constructor <;> simp [client, start])
    (fun _ _ _ hc hok hnext => hc.step hok hnext) h

/-- The request stands wherever the invariant holds. -/
theorem StopKept.stopStands (hc : c.StopKept) : c.StopStands := by
  intro hidle hrunning
  refine hc.stands hidle fun hreturned => hrunning ⟨?_, ?_⟩
  · exact hc.subscriberLeft (.inr hreturned)
  · exact hc.publisherLeft hidle (by simp [hreturned])

/-- After the request `SubscribeLoop` has come to its loop condition. -/
structure Leaving (c : Client) : Prop extends StopKept c where
  /-- The request has been made. -/
  requested : c.stopper ≠ .idle
  /-- `SubscribeLoop` is at its loop condition or has been left. -/
  atTest : (∃ reconnect, c.subscriber = .test reconnect) ∨ c.subscriber = .exited

/-- From its loop condition `SubscribeLoop` only leaves. -/
theorem Leaving.step (hc : c.Leaving) (hok : StopLandsOffline c l) (h : c.next l = some c') :
    c'.Leaving := by
  have hkept : c'.StopKept := hc.toStopKept.step hok h
  rcases next_cases h with ⟨r, -, h⟩ | ⟨i, -, h⟩ | h | h | h
  · obtain ⟨-, hsub, -, hstop⟩ := issue_frame h
    exact ⟨hkept, hstop ▸ hc.requested, hsub ▸ hc.atTest⟩
  · obtain ⟨-, hsub, -, hstop⟩ := push_frame h
    exact ⟨hkept, hstop ▸ hc.requested, hsub ▸ hc.atTest⟩
  · have hfails : ∀ rc, l = .connectReturns rc → rc ≠ MOSQ_ERR_SUCCESS := by
      rintro rc rfl
      exact hok hc.requested
    obtain ⟨-, -, hstop, -, hleft, hexits⟩ :=
      subscribeStep_offline h (hc.offline hc.requested) hfails
    -- The loop condition sees the request, which nobody has written over.
    obtain ⟨reconnect, hpc⟩ := hc.atTest.resolve_right hleft
    have hstate : c.state = .stopping := by
      refine hc.stands hc.requested fun hreturned => ?_
      simp [hc.subscriberLeft (.inr hreturned)] at hpc
    exact ⟨hkept, hstop ▸ hc.requested, .inr (hexits hstate reconnect hpc)⟩
  · obtain ⟨-, hsub, hstop, -⟩ := publishStep_frame h
    exact ⟨hkept, hstop ▸ hc.requested, hsub ▸ hc.atTest⟩
  · rcases stopStep_cases h with ⟨-, -, rfl⟩ | ⟨-, -, -, rfl⟩ | ⟨-, -, -, rfl⟩ | ⟨-, -, rfl⟩ <;>
      exact ⟨hkept, by simp, hc.atTest⟩

end Client

/-! ## When a stop request is kept -/

/-- A stop request that lands while `SubscribeLoop` is offline, and is not followed by a successful
connect of a call under way, is never lost. -/
theorem stopNeverLost_of_landsOffline {c : Client}
    (hc : (client.restrict StopLandsOffline).Reachable c) :
    c.StopStands ∧ ∀ c' reconnect, c.stopper ≠ .idle → c.subscriber = .test reconnect →
      (client.restrict StopLandsOffline).Run c c' →
        ∀ reconnect', c'.subscriber ≠ .connecting reconnect' := by
  refine ⟨(Client.stopKept_of_reachable hc).stopStands, ?_⟩
  intro c' reconnect hrequested hpc hrun reconnect'
  have hleaving : c'.Leaving := by
    refine hrun.invariant (P := Client.Leaving) (fun s l s' hs hnext => ?_)
      ⟨Client.stopKept_of_reachable hc, hrequested, .inl ⟨reconnect, hpc⟩⟩
    obtain ⟨hok, hnext⟩ := TransitionSystem.restrict_next.mp hnext
    exact hs.step hok hnext
  rcases hleaving.atTest with ⟨r, hr⟩ | hr <;> simp [hr]

/-- A request that lands while `SubscribeLoop` sleeps is kept. -/
theorem stopNeverLost_of_landsOffline_sleeping :
    ∃ c : Client, c.stopper = .joiningPublisher ∧ c.subscriber = .test false ∧ c.StopStands := by
  have hexec : (client.restrict StopLandsOffline).exec client.init
      [.subscribeTest, .connectReturns 14, .stop, .subscribeWakes] =
      some { Client.start with
        state := .stopping
        stopper := .joiningPublisher
        pushedAtStop := some 0 } := by rfl
  exact ⟨_, rfl, rfl,
    (stopNeverLost_of_landsOffline (TransitionSystem.reachable_of_exec hexec)).1⟩

/-- A request that lands just after a successful connect is overwritten with `Running`. -/
theorem not_stopNeverLost : ¬ StopNeverLost client := by
  rintro ⟨hstands, -⟩
  have hexec : client.exec client.init
      [.subscribeTest, .connectReturns MOSQ_ERR_SUCCESS, .stop, .setRunning] =
      some { Client.start with
        state := .running
        subscriber := .looping
        stopper := .joiningPublisher
        pushedAtStop := some 0 } := by rfl
  have := hstands _ (TransitionSystem.reachable_of_exec hexec)
  simp [Client.StopStands] at this

/-- While a connection is up, or has just been lost, `SubscribeLoop` alone comes to overwrite a
request that has been made. -/
theorem stop_lost_of_online {c : Client} (hrequested : c.stopper ≠ .idle)
    (hstate : c.state = .stopping) (honline : c.subscriber.offline = false) :
    ∃ c', client.Run c c' ∧ ¬ c'.StopStands := by
  -- After a drop, `SubscribeLoop` writes `RECONNECTING` over the request.
  have hdropped : ∀ c : Client, c.stopper ≠ .idle → c.subscriber = .dropped →
      ∃ c', client.Run c c' ∧ ¬ c'.StopStands := by
    intro c hrequested hpc
    refine ⟨{ c with state := .reconnecting, subscriber := .sleeping true },
      .step .setReconnecting .refl ?_, ?_⟩
    · simp [client, Client.next, Client.subscribeStep, hpc]
    · simp [Client.StopStands, hrequested]
  -- The loop condition does not look at the state when the loop returns.
  have hlooped : ∀ (c : Client) (rc : Int32), c.stopper ≠ .idle → c.state = .stopping →
      c.subscriber = .looped rc → ∃ c', client.Run c c' ∧ ¬ c'.StopStands := by
    intro c rc hrequested hstate hpc
    obtain ⟨c', hrun, hlost⟩ := hdropped { c with subscriber := .dropped } hrequested rfl
    have hnext : client.next c .loopTest = some { c with subscriber := .dropped } := by
      simp [client, Client.next, Client.subscribeStep, hpc, hstate]
    exact ⟨c', .trans (.step .loopTest .refl hnext) hrun, hlost⟩
  cases hpc : c.subscriber with
  -- After a connect, it writes `RUNNING`.
  | connected =>
    refine ⟨{ c with state := .running, subscriber := .looping }, .step .setRunning .refl ?_, ?_⟩
    · simp [client, Client.next, Client.subscribeStep, hpc]
    · simp [Client.StopStands, hrequested]
  | looping =>
    obtain ⟨c', hrun, hlost⟩ := hlooped { c with subscriber := .looped 0 } 0 hrequested hstate rfl
    have hnext : client.next c (.loopReturns 0) = some { c with subscriber := .looped 0 } := by
      simp [client, Client.next, Client.subscribeStep, hpc]
    exact ⟨c', .trans (.step (.loopReturns 0) .refl hnext) hrun, hlost⟩
  | looped rc => exact hlooped c rc hrequested hstate hpc
  | dropped => exact hdropped c hrequested hpc
  | _ => simp [hpc, SubscribePc.offline] at honline

/-- A step that does not meet the condition loses the request: `SubscribeLoop` alone then comes to
overwrite it. -/
theorem stop_lost_of_not_landsOffline {c c' : Client} {l : Label} (hkept : c.StopStands)
    (hbad : ¬ StopLandsOffline c l) (hnext : client.next c l = some c') :
    ∃ c'', client.Run c' c'' ∧ ¬ c''.StopStands := by
  cases l with
  | stop =>
    obtain ⟨-, -, rfl⟩ | ⟨hl, -⟩ | ⟨hl, -⟩ | ⟨hl, -⟩ := Client.stopStep_cases hnext
    · exact stop_lost_of_online (by simp) rfl (by simpa [StopLandsOffline] using hbad)
    all_goals cases hl
  | connectReturns rc =>
    obtain ⟨hrequested, rfl⟩ : c.stopper ≠ .idle ∧ rc = MOSQ_ERR_SUCCESS := by
      simpa [StopLandsOffline] using hbad
    have hconnecting : ∃ reconnect, c.subscriber = .connecting reconnect := by
      cases hpc : c.subscriber <;> simp [client, Client.next, Client.subscribeStep, hpc] at hnext
      exact ⟨_, rfl⟩
    obtain ⟨reconnect, hpc⟩ := hconnecting
    obtain rfl : { c with subscriber := .connected } = c' := by
      simpa [client, Client.next, Client.subscribeStep, hpc] using hnext
    exact stop_lost_of_online hrequested (hkept hrequested (by simp [hpc])) rfl
  | _ => exact absurd trivial hbad

end MosqCluster
