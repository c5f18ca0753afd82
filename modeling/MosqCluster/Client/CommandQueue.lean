import MosqCluster.Client.Model
import Mathlib.Data.List.Nodup

/-!
# Whether a queued command is kept

`PublishLoop` pops a command, runs it and deletes it, whatever `Run` returns. The history of a
client therefore splits into the commands handed over, the one it holds and those still queued; a
command is lost exactly when libmosquitto refuses it.

## Main definitions

* `Client.NoCommandLost`: every command pushed before `Stop` is queued, held, or has been handed
  over once, and hand-overs succeed in push order;
* `AcceptsCommand`: libmosquitto accepts what it is given.

## Main results

* `Client.conserves_of_reachable`: nothing but a hand-over takes a command away;
* `queueConserved_of_acceptsCommand`: no command is lost in a run in which each is accepted;
* `not_queueConserved`, `command_lost_of_refused`: a refused command is lost.
-/

namespace MosqCluster

/-- The command that `PublishLoop` holds, until it has deleted it. -/
def PublishPc.held : PublishPc → Option Queued
  | .holding q | .ran q => some q
  | _ => none

/-- The command that `PublishLoop` holds and has not run. -/
def PublishPc.unrun : PublishPc → List Queued
  | .holding q => [q]
  | _ => []

namespace Client

/-- The commands pushed before `Stop` set `state_`; all of them, while it has not. -/
def pushedBeforeStop (c : Client) : List Queued :=
  c.pushed.take (c.pushedAtStop.getD c.pushed.length)

/-- The commands handed to libmosquitto with success, in the order of the hand-overs. -/
def handedOver (c : Client) : List Queued :=
  (c.handed.filter fun h => h.2 = MOSQ_ERR_SUCCESS).map Prod.fst

/-- No queued command is lost, and successful hand-overs happen in push order. -/
structure NoCommandLost (c : Client) : Prop where
  /-- A command pushed before `Stop` is queued, held, or has been handed over exactly once. -/
  kept : ∀ q ∈ c.pushedBeforeStop,
    q ∈ c.commands ∨ c.publisher.held = some q ∨ c.handedOver.count q = 1
  /-- Successful hand-overs happen in push order. -/
  inOrder : c.handedOver.Sublist c.pushed

end Client

/-- No queued command is ever lost: in no reachable state. -/
def QueueConserved (T : TransitionSystem Client Label) : Prop :=
  ∀ c, T.Reachable c → c.NoCommandLost

/-- `Run` returns `MOSQ_ERR_SUCCESS` on a command pushed before `Stop`. -/
def AcceptsCommand (c : Client) : Label → Prop
  | .run rc => c.publisher.held.all (· ∈ c.pushedBeforeStop) → rc = MOSQ_ERR_SUCCESS
  | _ => True

instance (c : Client) (l : Label) : Decidable (AcceptsCommand c l) := by
  cases l <;> unfold AcceptsCommand <;> infer_instance

namespace Client

variable {c c' : Client} {l : Label}

/-- Every pushed command has been handed over, is held, or is queued, in push order; serial numbers
count the pushes. -/
structure Conserves (c : Client) : Prop where
  /-- The history of the queue. -/
  history : c.handed.map Prod.fst ++ c.publisher.unrun ++ c.commands = c.pushed
  /-- Serial numbers count the pushes. -/
  serials : c.pushed.map Queued.serial = List.range c.pushed.length
  /-- `Stop` has come after the pushes it has seen. -/
  pushedAtStop : ∀ n ∈ c.pushedAtStop, n ≤ c.pushed.length
  /-- The count is taken when `Stop` sets `state_`. -/
  requested : c.pushedAtStop.isSome → c.stopper ≠ .idle

/-- What the history of the queue is about. -/
def SameQueue (c c' : Client) : Prop :=
  c'.pushed = c.pushed ∧ c'.pushedAtStop = c.pushedAtStop ∧ c'.stopper = c.stopper

/-! ## What a step of each thread does to the queue -/

/-- `TaskQueue::Get` moves the front of the queue to `PublishLoop`. -/
theorem pop_queue {empty : PublishPc} (hempty : empty.unrun = []) :
    c.SameQueue (c.pop empty) ∧ (c.pop empty).handed = c.handed ∧
      (c.pop empty).publisher.unrun ++ (c.pop empty).commands = c.commands := by
  unfold pop
  split
  case h_1 hnil => simp [SameQueue, hempty, hnil]
  case h_2 q commands hcons => simp [SameQueue, PublishPc.unrun, hcons]

/-- `SubscribeLoop` leaves the queue alone. -/
theorem subscribeStep_queue (h : c.subscribeStep l c.subscriber = some c') :
    c.SameQueue c' ∧ c'.handed = c.handed ∧ c'.publisher = c.publisher ∧
      c'.commands = c.commands := by
  unfold subscribeStep at h
  split at h <;> simp only [Option.some.injEq, reduceCtorEq] at h <;> subst h <;>
    simp [SameQueue]

/-- A step of `PublishLoop` either runs the command it holds, or hands nothing over and keeps the
commands that have not run in order. -/
theorem publishStep_queue (h : c.publishStep l c.publisher = some c') :
    (∃ q rc, l = .run rc ∧ c.publisher = .holding q ∧
      c' = { c with publisher := .ran q, handed := c.handed ++ [(q, rc)] }) ∨
    (c.SameQueue c' ∧ c'.handed = c.handed ∧
      c'.publisher.unrun ++ c'.commands = c.publisher.unrun ++ c.commands) := by
  unfold publishStep at h
  split at h <;> simp only [Option.some.injEq, reduceCtorEq] at h <;> subst h
  -- The tests of the state do not touch the queue.
  case h_1 hpc =>
    right
    by_cases hstate : c.state = .stopping <;> simp [SameQueue, PublishPc.unrun, hpc, hstate]
  case h_2 hpc =>
    right
    by_cases hstate : c.state = .running <;> simp [SameQueue, PublishPc.unrun, hpc, hstate]
  case h_4 hpc =>
    right
    simpa [hpc, PublishPc.unrun] using c.pop_queue (show PublishPc.unrun .waiting = [] from rfl)
  case h_5 ok hpc =>
    right
    cases ok
    · simp [SameQueue, PublishPc.unrun, hpc]
    · simpa [hpc, PublishPc.unrun] using c.pop_queue (show PublishPc.unrun .test = [] from rfl)
  -- The command that is held is handed over.
  case h_6 rc q hpc => exact .inl ⟨q, rc, rfl, hpc, rfl⟩
  all_goals
    right
    simp_all [SameQueue, PublishPc.unrun]

/-! ## Conservation -/

/-- A step that leaves the history and the commands that have not run alone keeps them. -/
theorem Conserves.of_sameQueue (hc : c.Conserves) (hsame : c.SameQueue c')
    (hhanded : c'.handed = c.handed)
    (hqueue : c'.publisher.unrun ++ c'.commands = c.publisher.unrun ++ c.commands) :
    c'.Conserves := by
  obtain ⟨hpushed, hstop, hpc⟩ := hsame
  constructor
  · rw [hhanded, List.append_assoc, hqueue, ← List.append_assoc, hpushed]
    exact hc.history
  · rw [hpushed]
    exact hc.serials
  · rw [hpushed, hstop]
    exact hc.pushedAtStop
  · rw [hstop, hpc]
    exact hc.requested

/-- A push appends to the queue and to the history. -/
theorem Conserves.push (hc : c.Conserves) {i : Nat} (h : c.push i = some c') : c'.Conserves := by
  obtain ⟨command, -, rfl⟩ := Option.map_eq_some_iff.mp h
  constructor
  · simp [enqueue, ← hc.history]
  · simp [enqueue, hc.serials, List.range_succ]
  · intro n hn
    have := hc.pushedAtStop n hn
    simp only [enqueue, List.length_append, List.length_singleton]
    omega
  · exact hc.requested

/-- Every step conserves the commands. -/
theorem Conserves.step (hc : c.Conserves) (h : c.next l = some c') : c'.Conserves := by
  rcases next_cases h with ⟨r, -, h⟩ | ⟨i, -, h⟩ | h | h | h
  · obtain ⟨command, -, rfl⟩ := Option.map_eq_some_iff.mp h
    exact hc.of_sameQueue ⟨rfl, rfl, rfl⟩ rfl rfl
  · exact hc.push h
  · obtain ⟨hsame, hhanded, hpub, hcommands⟩ := subscribeStep_queue h
    exact hc.of_sameQueue hsame hhanded (by rw [hpub, hcommands])
  · rcases publishStep_queue h with ⟨q, rc, -, hpc, rfl⟩ | ⟨hsame, hhanded, hqueue⟩
    · -- The command that has run moves from the loop to what has been handed over.
      refine ⟨?_, hc.serials, hc.pushedAtStop, hc.requested⟩
      simpa [hpc, PublishPc.unrun] using hc.history
    · exact hc.of_sameQueue hsame hhanded hqueue
  · rcases stopStep_cases h with
      ⟨-, -, rfl⟩ | ⟨-, -, -, rfl⟩ | ⟨-, -, -, rfl⟩ | ⟨-, -, rfl⟩
    · exact ⟨hc.history, hc.serials, by simp, by simp⟩
    all_goals exact ⟨hc.history, hc.serials, hc.pushedAtStop, by simp⟩

/-- In every reachable state, whatever libmosquitto answers, the commands pushed so far are those
handed over, the one held and those queued, in push order: a command leaves the queue only to be
handed over. -/
theorem conserves_of_reachable (h : client.Reachable c) : c.Conserves :=
  TransitionSystem.Reachable.invariant (T := client)
    (by constructor <;> simp [client, start, PublishPc.unrun])
    (fun _ _ _ hc hnext => hc.step hnext) h

/-! ## Acceptance -/

/-- No command is pushed twice. -/
theorem Conserves.nodup (hc : c.Conserves) : c.pushed.Nodup :=
  List.Nodup.of_map Queued.serial (hc.serials ▸ List.nodup_range)

/-- A command that is already pushed does not come to be pushed before `Stop` later. -/
theorem Conserves.pushedBeforeStop_step (hc : c.Conserves) (h : c.next l = some c') {q : Queued}
    (hq : q ∈ c.pushed) (hbefore : q ∈ c'.pushedBeforeStop) : q ∈ c.pushedBeforeStop := by
  have hsame : c.SameQueue c' → q ∈ c.pushedBeforeStop := by
    rintro ⟨hpushed, hstop, -⟩
    simpa [pushedBeforeStop, hpushed, hstop] using hbefore
  rcases next_cases h with ⟨r, -, h⟩ | ⟨i, -, h⟩ | h | h | h
  · obtain ⟨command, -, rfl⟩ := Option.map_eq_some_iff.mp h
    exact hsame ⟨rfl, rfl, rfl⟩
  · obtain ⟨command, -, rfl⟩ := Option.map_eq_some_iff.mp h
    cases hstop : c.pushedAtStop with
    | none => simpa [pushedBeforeStop, hstop] using hq
    -- What is pushed after `Stop` stands behind the first `n` commands.
    | some n =>
      have hn := hc.pushedAtStop n (by simp [hstop])
      simpa [pushedBeforeStop, enqueue, hstop, List.take_append_of_le_length hn] using hbefore
  · exact hsame (subscribeStep_queue h).1
  · rcases publishStep_queue h with ⟨q, rc, -, -, rfl⟩ | ⟨hqueue, -⟩
    · exact hsame ⟨rfl, rfl, rfl⟩
    · exact hsame hqueue
  · rcases stopStep_cases h with
      ⟨-, hpc, rfl⟩ | ⟨-, -, -, rfl⟩ | ⟨-, -, -, rfl⟩ | ⟨-, -, rfl⟩
    · -- `Stop` begins here, so that it had not begun before.
      have hstop : c.pushedAtStop = none := by
        by_contra hsome
        exact hc.requested (Option.isSome_iff_ne_none.mpr hsome) hpc
      simpa [pushedBeforeStop, hstop] using hq
    all_goals exact hbefore

/-- Every command pushed before `Stop` and handed over so far has been accepted. -/
def Accepted (c : Client) : Prop :=
  ∀ h ∈ c.handed, h.1 ∈ c.pushedBeforeStop → h.2 = MOSQ_ERR_SUCCESS

/-- A step in which what is handed over is accepted keeps everything accepted. -/
theorem Accepted.step (ha : c.Accepted) (hc : c.Conserves) (hok : AcceptsCommand c l)
    (h : c.next l = some c') : c'.Accepted := by
  -- A command is handed over only by the `run` of the one that is held.
  have hhanded : ∀ e ∈ c'.handed, e ∈ c.handed ∨
      l = .run e.2 ∧ c.publisher = .holding e.1 := by
    rcases next_cases h with ⟨r, -, h⟩ | ⟨i, -, h⟩ | h | h | h
    · obtain ⟨command, -, rfl⟩ := Option.map_eq_some_iff.mp h
      exact fun e => .inl
    · obtain ⟨command, -, rfl⟩ := Option.map_eq_some_iff.mp h
      exact fun e => .inl
    · rw [(subscribeStep_queue h).2.1]
      exact fun e => .inl
    · rcases publishStep_queue h with ⟨q, rc, hl, hpc, rfl⟩ | ⟨-, hhanded, -⟩
      · intro e he
        rcases List.mem_append.mp he with he | he
        · exact .inl he
        · obtain rfl := List.mem_singleton.mp he
          exact .inr ⟨hl, hpc⟩
      · rw [hhanded]
        exact fun e => .inl
    · rcases stopStep_cases h with
        ⟨-, -, rfl⟩ | ⟨-, -, -, rfl⟩ | ⟨-, -, -, rfl⟩ | ⟨-, -, rfl⟩ <;> exact fun e => .inl
  intro e he hbefore
  -- What is handed over, or about to be, has been pushed.
  have hpushed : e.1 ∈ c.pushed := by
    rw [← hc.history]
    rcases hhanded e he with he | ⟨-, hpc⟩
    · simp [List.mem_map_of_mem (f := Prod.fst) he]
    · simp [hpc, PublishPc.unrun]
  have hbefore := hc.pushedBeforeStop_step h hpushed hbefore
  rcases hhanded e he with he | ⟨rfl, hpc⟩
  · exact ha e he hbefore
  · exact hok (by simpa [hpc, PublishPc.held] using hbefore)

/-- Where everything handed over has been accepted, no command is lost. -/
theorem Conserves.noCommandLost (hc : c.Conserves) (ha : c.Accepted) : c.NoCommandLost := by
  have hsub : c.handedOver.Sublist c.pushed := by
    have hfilter : c.handedOver.Sublist (c.handed.map Prod.fst) := List.filter_sublist.map _
    apply hfilter.trans
    rw [← hc.history, List.append_assoc]
    exact List.sublist_append_left _ _
  refine ⟨fun q hq => ?_, hsub⟩
  have hpushed : q ∈ c.pushed := List.mem_of_mem_take hq
  rw [← hc.history] at hpushed
  rcases List.mem_append.mp hpushed with hleft | hqueued
  · rcases List.mem_append.mp hleft with hhanded | hunrun
    · obtain ⟨⟨q, rc⟩, hmem, rfl⟩ := List.mem_map.mp hhanded
      have hover : q ∈ c.handedOver :=
        List.mem_map.mpr ⟨(q, rc), by simpa [hmem] using ha _ hmem hq, rfl⟩
      exact .inr (.inr (List.count_eq_one_of_mem (hc.nodup.sublist hsub) hover))
    · have hheld : c.publisher.held = some q := by
        cases hpc : c.publisher <;> simp_all [PublishPc.unrun, PublishPc.held]
      exact .inr (.inl hheld)
  · exact .inl hqueued

end Client

/-! ## When no queued command is lost -/

/-- In every run in which libmosquitto accepts each command pushed before `Stop`, no such command is
lost, and hand-overs succeed in push order. -/
theorem queueConserved_of_acceptsCommand {c : Client}
    (h : (client.restrict AcceptsCommand).Reachable c) : c.NoCommandLost := by
  have hinv : c.Conserves ∧ c.Accepted := by
    refine TransitionSystem.Reachable.invariant_restrict (T := client) (P := fun c =>
      c.Conserves ∧ c.Accepted) ⟨?_, ?_⟩ (fun s l s' hs hok hnext => ?_) h
    · exact Client.conserves_of_reachable .refl
    · simp [Client.Accepted, client, Client.start]
    · exact ⟨hs.1.step hnext, hs.2.step hs.1 hok hnext⟩
  exact hinv.1.noCommandLost hinv.2

/-- A publish that is accepted is kept. -/
theorem queueConserved_of_acceptsCommand_publish :
    ∃ c : Client, c.handed.map Prod.snd = [MOSQ_ERR_SUCCESS] ∧ c.NoCommandLost := by
  have hexec : (client.restrict AcceptsCommand).exec client.init
      [.issue (.publish [116] [112] 1 0 false), .push 0, .subscribeTest,
        .connectReturns MOSQ_ERR_SUCCESS, .setRunning, .publishTest, .runningTest, .get,
        .run MOSQ_ERR_SUCCESS, .delete] =
      some { Client.start with
        state := .running
        subscriber := .looping
        commandId := 1
        pushed := [⟨0, .publish 1 [116] [112] 0 false⟩]
        handed := [(⟨0, .publish 1 [116] [112] 0 false⟩, MOSQ_ERR_SUCCESS)] } := by rfl
  exact ⟨_, rfl, queueConserved_of_acceptsCommand (TransitionSystem.reachable_of_exec hexec)⟩

/-- A publish that meets a lost connection (`MOSQ_ERR_NO_CONN` is `4`) is deleted unsent. -/
theorem not_queueConserved : ¬ QueueConserved client := by
  intro hconserved
  let q : Queued := ⟨0, .publish 1 [116] [112] 0 false⟩
  have hexec : client.exec client.init
      [.issue (.publish [116] [112] 1 0 false), .push 0, .subscribeTest,
        .connectReturns MOSQ_ERR_SUCCESS, .setRunning, .publishTest, .runningTest, .get, .run 4,
        .delete] =
      some { Client.start with
        state := .running
        subscriber := .looping
        commandId := 1
        pushed := [q]
        handed := [(q, 4)] } := by rfl
  have hkept := (hconserved _ (TransitionSystem.reachable_of_exec hexec)).kept q
  revert hkept
  decide

/-- A command pushed before `Stop` that libmosquitto refuses is lost when it is deleted. -/
theorem command_lost_of_refused {c c₁ c₂ : Client} {rc : Int32} (hc : client.Reachable c)
    (hrefused : ¬ AcceptsCommand c (.run rc)) (hrun : client.next c (.run rc) = some c₁)
    (hdelete : client.next c₁ .delete = some c₂) : ¬ c₂.NoCommandLost := by
  have hcons := Client.conserves_of_reachable hc
  obtain ⟨q, hpc⟩ : ∃ q, c.publisher = .holding q := by
    cases hpc : c.publisher <;> simp [client, Client.next, Client.publishStep, hpc] at hrun
    exact ⟨_, rfl⟩
  obtain ⟨hbefore, hrc⟩ : q ∈ c.pushedBeforeStop ∧ rc ≠ MOSQ_ERR_SUCCESS := by
    simpa [AcceptsCommand, hpc, PublishPc.held] using hrefused
  obtain rfl : { c with publisher := .ran q, handed := c.handed ++ [(q, rc)] } = c₁ := by
    simpa [client, Client.next, Client.publishStep, hpc] using hrun
  obtain rfl : { c with publisher := .test, handed := c.handed ++ [(q, rc)] } = c₂ := by
    simpa [client, Client.next, Client.publishStep] using hdelete
  -- the command stands once in the history, namely where it was held
  have hnodup : (c.handed.map Prod.fst ++ [q] ++ c.commands).Nodup := by
    have := hcons.nodup
    rwa [← hcons.history, hpc] at this
  have hqueue : q ∉ c.commands := by
    rw [List.append_assoc] at hnodup
    exact (List.nodup_cons.mp hnodup.of_append_right).1
  have hhanded : q ∉ c.handed.map Prod.fst := fun hmem =>
    List.disjoint_of_nodup_append hnodup.of_append_left hmem (List.mem_singleton_self q)
  intro hkept
  rcases hkept.kept q hbefore with hqueued | hheld | hcount
  · exact hqueue hqueued
  · simp [PublishPc.held] at hheld
  · have hover : q ∈ Client.handedOver { c with handed := c.handed ++ [(q, rc)] } :=
      List.count_pos_iff.mp (hcount ▸ Nat.one_pos)
    obtain ⟨⟨q', rc'⟩, hmem, rfl⟩ := List.mem_map.mp hover
    obtain ⟨hmem, hrc'⟩ := List.mem_filter.mp hmem
    rcases List.mem_append.mp hmem with hmem | hmem
    · exact hhanded (List.mem_map_of_mem (f := Prod.fst) hmem)
    · obtain rfl : rc' = rc := by simpa using hmem
      exact hrc (by simpa using hrc')

end MosqCluster
