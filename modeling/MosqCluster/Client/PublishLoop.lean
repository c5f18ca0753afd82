import MosqCluster.Client.Model
import MosqCluster.Helper.ThreadPoolShutdown

/-!
# Shutting down

`PublishLoop` of `mosquitto_cluster_plugin/mosq_client.cpp` as a worker over the task queue, with
every statement of `Get`, and what becomes of it, and of the workers of a thread pool, after `Stop`.
The threads that push are those that call `Publish`, `Subscribe` and `Unsubscribe`; `SubscribeLoop`
writes `state_`.

`Stop` does not wake a worker that is blocked in `Get`, so all depends on the tasks that it finds.

## Main results

* `shutsDown_of_tasks`: after `Stop`, a worker can go on until all are done, as long as `Stop` finds
  a task for every worker that may come to block.
-/

namespace MosqCluster

open Workers

/-- `PublishLoop`, with `state_`. -/
def publishMain : LoopKind RunningState where
  initial := .stopped
  stopValue := .stopping
  leaves state := state = .stopping
  leaves_stopValue := rfl
  serves state := state = .running
  writes state := state = .running ∨ state = .reconnecting

/-- The thread that runs `PublishLoop`. The commands are those of `V`. -/
def publishLoop (P V : Type) [DecidableEq P] :
    TransitionSystem (Workers RunningState 1 P V) (WorkersLabel RunningState 1 P V) :=
  workers publishMain 1 P V

/-- The workers of a thread pool, and `PublishLoop`, are stopped in every run in which `Stop` finds
them supplied, no other thread is in `Push` then or calls it afterwards, and nobody else writes the
variable after `Stop`. -/
theorem shutsDown_of_tasks (P V : Type) [Fintype P] [DecidableEq P] [DecidableEq V] :
    (∀ size s, ((threadPool size P V).restrict (EndsWell threadMain)).Reachable s →
      s.ShutsDown threadMain) ∧
    ∀ s, ((publishLoop P V).restrict (EndsWell publishMain)).Reachable s →
      s.ShutsDown publishMain :=
  ⟨fun _ _ hs => shutsDown_of_endsWell hs, fun _ hs => shutsDown_of_endsWell hs⟩

/-- Two workers have tested the variable and go into `Get`, and there are two tasks, when `Stop` is
called. Both return a task, one of which pushes a third one, and leave. -/
theorem shutsDown_two_workers :
    ∃ s : Workers Bool 2 Unit Nat, (∀ w, s.loop w = .exited) ∧
      s.queue.returned = [(.inl 1, some 7), (.inl 0, some 8)] ∧ s.queue.queue = [9] ∧
      s.ShutsDown threadMain := by
  have hexec : ∃ s : Workers Bool 2 Unit Nat,
      ((threadPool 2 Unit Nat).restrict (EndsWell threadMain)).exec (threadPool 2 Unit Nat).init
        (.push (.inr ()) 7 :: List.replicate 4 (.run (.inr ())) ++
          .push (.inr ()) 8 :: List.replicate 4 (.run (.inr ())) ++
          List.replicate 2 (.run (.inl 0)) ++ List.replicate 3 (.run (.inl 1)) ++ [.stop] ++
          List.replicate 6 (.run (.inl 1)) ++ List.replicate 7 (.run (.inl 0)) ++
          .push (.inl 0) 9 :: List.replicate 6 (.run (.inl 0)) ++
          List.replicate 2 (.run (.inl 1))) = some s ∧
      (∀ w, s.loop w = .exited) ∧
      s.queue.returned = [(.inl 1, some 7), (.inl 0, some 8)] ∧ s.queue.queue = [9] :=
    ⟨_, rfl, fun w => by decide +revert, rfl, rfl⟩
  obtain ⟨s, hexec, hexited, hreturned, hqueue⟩ := hexec
  exact ⟨s, hexited, hreturned, hqueue, (shutsDown_of_tasks Unit Nat).1 2 s
    (TransitionSystem.reachable_of_exec hexec)⟩

/-- After `Stop`, a single worker that is blocked in `Get` stays there, and so does `PublishLoop`.
-/
theorem not_progresses_blocked :
    (∃ s, (threadPool 1 Unit Unit).Reachable s ∧ ¬ s.Progresses threadMain ∧
      s.stopper ≠ .outside ∧ s.Deserted) ∧
    ∃ s, (publishLoop Unit Unit).Reachable s ∧ ¬ s.Progresses publishMain ∧
      s.stopper ≠ .outside ∧ s.Deserted := by
  -- it tests the variable, calls `Get`, and finds the queue empty
  have hpool : ∃ s, (threadPool 1 Unit Unit).exec (threadPool 1 Unit Unit).init
      (List.replicate 5 (.run (.inl 0)) ++ [.stop]) = some s ∧
      s.stopper ≠ .outside ∧ s.Deserted ∧
      (∀ w, s.next threadMain (.run (.inl w)) = none) ∧ s.next threadMain .join = none :=
    ⟨_, rfl, nofun, by decide, fun w => by rw [Subsingleton.elim w 0]; rfl, rfl⟩
  have hclient : ∃ s, (publishLoop Unit Unit).exec (publishLoop Unit Unit).init
      (.write .running :: List.replicate 5 (.run (.inl 0)) ++ [.stop]) = some s ∧
      s.stopper ≠ .outside ∧ s.Deserted ∧
      (∀ w, s.next publishMain (.run (.inl w)) = none) ∧ s.next publishMain .join = none :=
    ⟨_, rfl, nofun, by decide, fun w => by rw [Subsingleton.elim w 0]; rfl, rfl⟩
  obtain ⟨s, hs, hstop, hdeserted, hworker, hjoin⟩ := hpool
  obtain ⟨c, hc, hstop', hdeserted', hworker', hjoin'⟩ := hclient
  refine ⟨⟨s, TransitionSystem.reachable_of_exec hs, fun hprogress => ?_, hstop, hdeserted⟩,
    c, TransitionSystem.reachable_of_exec hc, fun hprogress => ?_, hstop', hdeserted'⟩
  · obtain ⟨w, s', hnext⟩ | ⟨s', hnext⟩ := hprogress hstop hdeserted.1
    · simp [hworker w] at hnext
    · simp [hjoin] at hnext
  · obtain ⟨w, s', hnext⟩ | ⟨s', hnext⟩ := hprogress hstop' hdeserted'.1
    · simp [hworker' w] at hnext
    · simp [hjoin'] at hnext

end MosqCluster
