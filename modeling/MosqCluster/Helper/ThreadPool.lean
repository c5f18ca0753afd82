import MosqCluster.Helper.TaskQueue
import Mathlib.Data.Fintype.Sum

/-!
# Threads that work off a task queue

A worker tests a variable that the stopping thread writes, and gets tasks from a `TaskQueue`, until
the test fails: `ThreadMain` of `helper/thread_pool.cpp`, for any number of workers, and
`PublishLoop` of `mosquitto_cluster_plugin/mosq_client.cpp`, which is one worker. What they do
differently is in a `LoopKind`. Besides the workers there is any finite number of threads that call
`Push`; a task may call `Push` as well. `Stop` writes the variable, and does not touch the queue;
`Wait` joins the workers one after another.

A step is one statement of one thread, with the queue taken apart as in `TaskQueue`.

## Main definitions

* `Workers` and `workers`: the system;
* `Workers.Progresses` and `Workers.Deserted`: after `Stop`, a worker or the stopping thread has a
  next statement; the workers that are left are blocked, and nobody is there to wake them;
* `Workers.Invariant`: how the workers stand in their loops and in the queue.

## Main results

* `Workers.next_cases`: what a step can do;
* `Workers.invariant_of_reachable`;
* `Workers.exists_next_of_idle` and `Workers.exists_next_of_run`: who has a next statement.
-/

namespace MosqCluster

open TaskQueue

/-- What a loop makes of the variable. -/
structure LoopKind (F : Type) where
  /-- The value at the start. -/
  initial : F
  /-- What `Stop` writes. -/
  stopValue : F
  /-- The loop is left. -/
  leaves : F → Bool
  leaves_stopValue : leaves stopValue = true
  /-- The queue is asked; otherwise the worker sleeps for a while. -/
  serves : F → Bool
  /-- What yet another thread may write. -/
  writes : F → Bool

/-- Where a worker stands. -/
inductive WorkerPc (V : Type)
  /-- Before the loop condition. -/
  | test
  /-- Behind it. -/
  | tested
  /-- In `sleep`. -/
  | sleeping
  /-- In `Get`. -/
  | getting
  /-- In `Run` or `Finish` of a task. -/
  | running (task : V)
  /-- The loop has been left. -/
  | exited
  deriving DecidableEq

/-- A worker is in no call of the queue. -/
def WorkerPc.outside {V : Type} : WorkerPc V → Bool
  | .test | .tested | .sleeping | .exited => true
  | .getting | .running _ => false

/-- Where the stopping thread stands. -/
inductive StopperPc
  /-- Before `Stop`. -/
  | outside
  /-- In `pthread_join` of a worker. -/
  | joining (i : Nat)
  /-- All workers are joined. -/
  | joined
  deriving DecidableEq

/-- The variable, the queue with the threads that use it, the workers, and the stopping thread. The
other threads are those of `P`. -/
structure Workers (F : Type) (size : Nat) (P V : Type) where
  flag : F
  queue : TaskQueue (Fin size ⊕ P) V
  loop : Fin size → WorkerPc V
  stopper : StopperPc

/-- One step. -/
inductive WorkersLabel (F : Type) (size : Nat) (P V : Type)
  /-- The next statement of a worker, or of a thread inside of `Push`. -/
  | run (t : Fin size ⊕ P)
  /-- A thread calls `Push`. -/
  | push (t : Fin size ⊕ P) (value : V)
  /-- A blocked thread wakes up without a signal. -/
  | wakeUp (t : Fin size ⊕ P)
  /-- `pthread_cond_wait` fails. -/
  | waitFails (t : Fin size ⊕ P)
  /-- Yet another thread writes the variable. -/
  | write (value : F)
  /-- `Stop`. -/
  | stop
  /-- A worker is joined. -/
  | join

/-- The worker or the other thread that takes the step. -/
def WorkersLabel.thread? {F : Type} {size : Nat} {P V : Type} :
    WorkersLabel F size P V → Option (Fin size ⊕ P)
  | .run t | .push t _ | .wakeUp t | .waitFails t => some t
  | .write _ | .stop | .join => none

namespace Workers

variable {F : Type} {size : Nat} {P V : Type}

/-- A worker goes on to another statement of its loop. -/
def goTo (s : Workers F size P V) (w : Fin size) (p : WorkerPc V) : Workers F size P V :=
  { s with loop := Function.update s.loop w p }

@[simp]
theorem goTo_loop_self (s : Workers F size P V) (w : Fin size) (p : WorkerPc V) :
    (s.goTo w p).loop w = p :=
  Function.update_self ..

theorem goTo_loop_of_ne (s : Workers F size P V) {w w' : Fin size} (h : w' ≠ w)
    (p : WorkerPc V) : (s.goTo w p).loop w' = s.loop w' :=
  Function.update_of_ne h ..

/-- A worker goes on to where it stands. -/
theorem goTo_self (s : Workers F size P V) (w : Fin size) : s.goTo w (s.loop w) = s := by
  rw [goTo, Function.update_eq_self]

variable [DecidableEq P]

/-- A step of the queue. -/
def queueStep (s : Workers F size P V) (l : TaskQueue.Label (Fin size ⊕ P) V) :
    Option (Workers F size P V) :=
  (s.queue.next l).map fun queue => { s with queue := queue }

/-- The next statement of a worker. -/
def step (k : LoopKind F) (s : Workers F size P V) (w : Fin size) : Option (Workers F size P V) :=
  match s.loop w with
  | .test => some (s.goTo w (if k.leaves s.flag then .exited else .tested))
  | .tested =>
    if k.serves s.flag then (s.goTo w .getting).queueStep (.get (.inl w))
    else some (s.goTo w .sleeping)
  | .sleeping => some (s.goTo w .test)
  | .getting =>
    match s.queue.pc (.inl w) with
    | .getReturn (some task) => (s.goTo w (.running task)).queueStep (.run (.inl w))
    | .getReturn none => (s.goTo w .test).queueStep (.run (.inl w))
    | _ => s.queueStep (.run (.inl w))
  | .running _ =>
    match s.queue.pc (.inl w) with
    | .idle => some (s.goTo w .test)
    | _ => s.queueStep (.run (.inl w))
  | .exited => none

/-- One step. -/
def next (k : LoopKind F) (s : Workers F size P V) :
    WorkersLabel F size P V → Option (Workers F size P V)
  | .run (.inl w) => s.step k w
  | .run (.inr p) => s.queueStep (.run (.inr p))
  | .push (.inl w) value =>
    match s.loop w with
    | .running _ => s.queueStep (.push (.inl w) value)
    | _ => none
  | .push (.inr p) value => s.queueStep (.push (.inr p) value)
  | .wakeUp t => s.queueStep (.wakeUp t)
  | .waitFails t => s.queueStep (.waitFails t)
  | .write value => if k.writes value then some { s with flag := value } else none
  | .stop =>
    match s.stopper with
    | .outside => some { s with flag := k.stopValue, stopper := .joining 0 }
    | _ => none
  | .join =>
    match s.stopper with
    | .joining i =>
      if h : i < size then
        match s.loop ⟨i, h⟩ with
        | .exited => some { s with stopper := .joining (i + 1) }
        | _ => none
      else some { s with stopper := .joined }
    | _ => none

end Workers

/-- Workers of a kind, at the start of their loops. -/
def workers {F : Type} (k : LoopKind F) (size : Nat) (P V : Type) [DecidableEq P] :
    TransitionSystem (Workers F size P V) (WorkersLabel F size P V) where
  init := ⟨k.initial, .start, fun _ => .test, .outside⟩
  next := Workers.next k

/-! ## Stuck workers -/

namespace Workers

variable {F : Type} {size : Nat} {P V : Type} [DecidableEq P]

/-- After `Stop`, while a worker has not left its loop, there is an enabled step of a worker, or of
the stopping thread, which goes on only behind a worker that has left its loop. -/
def Progresses (k : LoopKind F) (s : Workers F size P V) : Prop :=
  s.stopper ≠ .outside → (∃ w, s.loop w ≠ .exited) →
    (∃ w s', s.next k (.run (.inl w)) = some s') ∨ ∃ s', s.next k .join = some s'

omit [DecidableEq P] in
/-- All workers that have not left their loops are blocked in `Get`, and nobody is left to wake
them. -/
def Deserted (s : Workers F size P V) : Prop :=
  (∃ w, s.loop w ≠ .exited) ∧ (∀ w, s.loop w ≠ .exited → s.queue.pc (.inl w) = .waiting) ∧
    ∀ p, s.queue.pc (.inr p) = .idle

omit [DecidableEq P] in
instance [Fintype P] [DecidableEq V] (s : Workers F size P V) : Decidable s.Deserted :=
  inferInstanceAs (Decidable (_ ∧ _ ∧ _))

/-- What the shutdown promises of a state. -/
structure ShutsDown (k : LoopKind F) (s : Workers F size P V) : Prop where
  progresses : s.Progresses k
  not_deserted : s.stopper ≠ .outside → ¬ s.Deserted

variable {k : LoopKind F} {s s' : Workers F size P V} {l : WorkersLabel F size P V}

/-! ## What a step does -/

/-- What holds of the threads and the queue. -/
structure Invariant (s : Workers F size P V) : Prop where
  exclusive : s.queue.Exclusive
  /-- A worker that is in no call is in none for the queue either. -/
  outside : ∀ w, (s.loop w).outside → s.queue.pc (.inl w) = .idle
  /-- A worker is in `Get` exactly while it stands there in its loop. -/
  getting : ∀ w, s.loop w = .getting ↔ (s.queue.pc (.inl w)).pushes = false
  /-- The other threads do not call `Get`. -/
  pusher : ∀ p, (s.queue.pc (.inr p)).pushes

/-- A step of the queue that a worker or another thread takes. -/
structure Moves (l : WorkersLabel F size P V) (s s' : Workers F size P V)
    (ql : TaskQueue.Label (Fin size ⊕ P) V) : Prop where
  thread_eq : l.thread? = some ql.thread
  next_eq : s.queue.next ql = some s'.queue
  flag_eq : s'.flag = s.flag
  stopper_eq : s'.stopper = s.stopper
  loop_eq : ∀ w, .inl w ≠ ql.thread → s'.loop w = s.loop w
  outside : ∀ w, .inl w = ql.thread → (s'.loop w).outside → s'.queue.pc (.inl w) = .idle
  getting : ∀ w, .inl w = ql.thread →
    (s'.loop w = .getting ↔ (s'.queue.pc (.inl w)).pushes = false)
  tested : ∀ w, .inl w = ql.thread → s'.loop w ≠ .tested
  pusher : ∀ p, .inr p = ql.thread → (s'.queue.pc (.inr p)).pushes

/-- A worker takes a step of the queue, and goes on in its loop. -/
theorem Moves.of_worker {ql : TaskQueue.Label (Fin size ⊕ P) V} {w : Fin size} {p : WorkerPc V}
    {queue : TaskQueue (Fin size ⊕ P) V} (hl : l.thread? = some (.inl w))
    (hthread : ql.thread = .inl w) (hnext : s.queue.next ql = some queue) (hto : p ≠ .tested)
    (houtside : p.outside → queue.pc (.inl w) = .idle)
    (hgetting : p = .getting ↔ (queue.pc (.inl w)).pushes = false) :
    Moves l s { s.goTo w p with queue := queue } ql := by
  -- No other worker takes part in the step.
  have hself : ∀ w', .inl w' = ql.thread → w' = w := fun w' hw' =>
    Sum.inl.inj (hw'.trans hthread)
  refine ⟨by rw [hl, hthread], hnext, rfl, rfl, ?_, ?_, ?_, ?_, ?_⟩
  · intro w' hw'
    apply goTo_loop_of_ne
    rintro rfl
    exact hw' hthread.symm
  · intro w' hw'
    obtain rfl := hself w' hw'
    rwa [goTo_loop_self]
  · intro w' hw'
    obtain rfl := hself w' hw'
    rwa [goTo_loop_self]
  · intro w' hw'
    obtain rfl := hself w' hw'
    rwa [goTo_loop_self]
  · intro p' hp'
    rw [hthread] at hp'
    cases hp'

/-- A worker takes a step of the queue, and stays where it is in its loop. -/
theorem Moves.of_worker_stays {ql : TaskQueue.Label (Fin size ⊕ P) V} {w : Fin size}
    {p : WorkerPc V} {queue : TaskQueue (Fin size ⊕ P) V} (hl : l.thread? = some (.inl w))
    (hthread : ql.thread = .inl w) (hnext : s.queue.next ql = some queue)
    (hloop : s.loop w = p) (hout : p.outside = false)
    (hgetting : p = .getting ↔ (queue.pc (.inl w)).pushes = false) :
    Moves l s { s with queue := queue } ql := by
  have hto : p ≠ .tested := by
    rintro rfl
    cases hout
  have hmoves : Moves l s { s.goTo w p with queue := queue } ql :=
    .of_worker hl hthread hnext hto (by simp [hout]) hgetting
  rwa [← hloop, goTo_self] at hmoves

/-- Another thread takes a step of the queue. -/
theorem Moves.of_pusher {ql : TaskQueue.Label (Fin size ⊕ P) V} {p : P}
    {queue : TaskQueue (Fin size ⊕ P) V} (hl : l.thread? = some (.inr p))
    (hthread : ql.thread = .inr p) (hnext : s.queue.next ql = some queue)
    (hpushes : (queue.pc (.inr p)).pushes) : Moves l s { s with queue := queue } ql := by
  have hworker : ∀ w, .inl w ≠ ql.thread := by
    intro w
    rw [hthread]
    nofun
  refine ⟨by rw [hl, hthread], hnext, rfl, rfl, fun _ _ => rfl, fun w hw => absurd hw (hworker w),
    fun w hw => absurd hw (hworker w), fun w hw => absurd hw (hworker w), ?_⟩
  intro p' hp'
  obtain rfl := Sum.inr.inj (hp'.trans hthread)
  exact hpushes

/-- The next statement of a worker moves it within its loop, or is a step of the queue. -/
theorem step_cases {w : Fin size} (h : Invariant s) (hstep : s.step k w = some s') :
    (∃ p, s' = s.goTo w p ∧ p.outside ∧ s.queue.pc (.inl w) = .idle ∧
      (p = .tested → k.leaves s.flag = false)) ∨
    ∃ ql, Moves (.run (.inl w)) s s' ql ∧
      ∀ t, ql = .get t → t = .inl w ∧ s.loop w = .tested ∧ k.serves s.flag = true := by
  have hgetting := h.getting w
  have houtside := h.outside w
  -- a step of the queue that leaves the worker in its place
  have hstays : ∀ p, s.loop w = p → p.outside = false →
      (p = .getting → ∀ result, s.queue.pc (.inl w) ≠ .getReturn result) →
      s.queueStep (.run (.inl w)) = some s' → Moves (.run (.inl w)) s s' (.run (.inl w)) := by
    intro p hloop hout hreturn hqueue
    obtain ⟨queue, hnext, rfl⟩ := Option.map_eq_some_iff.mp hqueue
    obtain ⟨-, hpushes, -⟩ := pc_self_of_runStep hnext
    refine .of_worker_stays rfl rfl hnext hloop hout ?_
    rw [hloop] at hgetting
    rw [hgetting, ← Bool.not_eq_true, ← Bool.not_eq_true, hpushes, not_or, iff_self_and]
    rintro hnot ⟨result, hresult⟩
    exact hreturn (hgetting.mpr (by simpa using hnot)) result hresult
  cases hloop : s.loop w <;> simp only [step, hloop] at hstep
  case test =>
    obtain rfl := Option.some.inj hstep
    refine .inl ⟨_, rfl, ?_, houtside (by rw [hloop]; rfl), ?_⟩
    · split_ifs <;> rfl
    · split_ifs with hleaves
      · exact fun h => by cases h
      · exact fun _ => Bool.eq_false_iff.mpr hleaves
  case tested =>
    have hidle := houtside (by rw [hloop]; rfl)
    split_ifs at hstep with hserves
    · obtain ⟨queue, hnext, rfl⟩ := Option.map_eq_some_iff.mp hstep
      have hqueue : s.queue.goTo (.inl w) .getAcquire = queue := by
        have : s.queue.next (.get (.inl w)) = some queue := hnext
        simpa [TaskQueue.next, hidle] using this
      subst hqueue
      refine .inr ⟨_, .of_worker rfl rfl hnext (by simp) (by simp [WorkerPc.outside])
        (by simp [Pc.pushes]), ?_⟩
      intro t ht
      obtain rfl := TaskQueue.Label.get.inj ht
      exact ⟨rfl, rfl, hserves⟩
    · obtain rfl := Option.some.inj hstep
      exact .inl ⟨_, rfl, rfl, hidle, by simp⟩
  case sleeping =>
    obtain rfl := Option.some.inj hstep
    exact .inl ⟨_, rfl, rfl, houtside (by rw [hloop]; rfl), by simp⟩
  case getting =>
    -- `Get` returns a task, returns none, or goes on
    have hreturns : ∀ p result, s.queue.pc (.inl w) = .getReturn result → p ≠ .tested →
        p ≠ .getting → (s.goTo w p).queueStep (.run (.inl w)) = some s' →
        Moves (.run (.inl w)) s s' (.run (.inl w)) := by
      intro p result hpc htested hget hqueue
      obtain ⟨queue, hnext, rfl⟩ := Option.map_eq_some_iff.mp hqueue
      obtain ⟨-, -, hidle⟩ := pc_self_of_runStep hnext
      have hidle := hidle.mpr (.inr ⟨result, hpc⟩)
      exact .of_worker rfl rfl hnext htested (fun _ => hidle) (by simp [hget, hidle, Pc.pushes])
    split at hstep
    · next task hpc =>
      exact .inr ⟨_, hreturns (.running task) _ hpc (by simp) (by simp) hstep,
        fun _ hget => by cases hget⟩
    · next hpc =>
      exact .inr ⟨_, hreturns .test _ hpc (by simp) (by simp) hstep,
        fun _ hget => by cases hget⟩
    · next hsome hnone =>
      refine .inr ⟨_, hstays _ hloop rfl (fun _ result hresult => ?_) hstep,
        fun _ hget => by cases hget⟩
      cases result with
      | none => exact hnone hresult
      | some task => exact hsome task hresult
  case running task =>
    split at hstep
    · next hidle =>
      obtain rfl := Option.some.inj hstep
      exact .inl ⟨_, rfl, rfl, hidle, by simp⟩
    · exact .inr ⟨_, hstays _ hloop rfl (by simp) hstep, fun _ hget => by cases hget⟩
  case exited => cases hstep

/-- A thread other than the workers goes on, or calls `Push`. -/
theorem moves_of_pusher {p : P} {ql : TaskQueue.Label (Fin size ⊕ P) V} (h : Invariant s)
    (hl : l.thread? = some (.inr p)) (hql : ql = .run (.inr p) ∨ ∃ value, ql = .push (.inr p) value)
    (hstep : s.queueStep ql = some s') : Moves l s s' ql := by
  obtain ⟨queue, hnext, rfl⟩ := Option.map_eq_some_iff.mp hstep
  obtain rfl | ⟨value, rfl⟩ := hql
  · exact .of_pusher hl rfl hnext ((pc_self_of_runStep hnext).2.1.mpr (.inl (h.pusher p)))
  · have hgoTo := hnext
    simp only [TaskQueue.next] at hgoTo
    split at hgoTo
    · obtain rfl := Option.some.inj hgoTo
      exact .of_pusher hl rfl hnext (by simp [Pc.pushes])
    · cases hgoTo

/-- A blocked thread wakes up, or its wait fails. -/
theorem moves_of_wait {t : Fin size ⊕ P} {ql : TaskQueue.Label (Fin size ⊕ P) V} {p p' : Pc V}
    (h : Invariant s) (hl : l.thread? = some t) (hthread : ql.thread = t)
    (hpc : s.queue.pc t = p) (hp : p.pushes = false) (hp' : p'.pushes = false)
    (hnext : s.queue.next ql = some (s.queue.goTo t p')) :
    Moves l s { s with queue := s.queue.goTo t p' } ql := by
  rcases t with w | q
  · have hloop : s.loop w = .getting := (h.getting w).mpr (by rw [hpc, hp])
    exact .of_worker_stays hl hthread hnext hloop rfl (by simp [hp'])
  · have hpushes := h.pusher q
    rw [hpc, hp] at hpushes
    cases hpushes

/-- A step moves a worker within its loop, takes a step of the queue, is `Stop`, or leaves the
workers and the queue. -/
theorem next_cases (h : Invariant s) (hnext : s.next k l = some s') :
    (∃ w p, l = .run (.inl w) ∧ s' = s.goTo w p ∧ p.outside ∧ s.queue.pc (.inl w) = .idle ∧
      (p = .tested → k.leaves s.flag = false)) ∨
    (∃ ql, Moves l s s' ql ∧
      ∀ t, ql = .get t → ∃ w, t = .inl w ∧ s.loop w = .tested ∧ k.serves s.flag = true) ∨
    (l = .stop ∧ s.stopper = .outside ∧
      s' = { s with flag := k.stopValue, stopper := .joining 0 }) ∨
    (s'.queue = s.queue ∧ s'.loop = s.loop ∧ (s'.stopper = .outside ↔ s.stopper = .outside) ∧
      (s'.flag = s.flag ∨ ∃ value, l = .write value)) := by
  cases l with
  | run t =>
    rcases t with w | p
    · rcases step_cases h hnext with ⟨p, hs', hp⟩ | ⟨ql, hmoves, hget⟩
      · exact .inl ⟨w, p, rfl, hs', hp⟩
      · exact .inr (.inl ⟨ql, hmoves, fun t ht => ⟨w, hget t ht⟩⟩)
    · exact .inr (.inl ⟨_, moves_of_pusher h rfl (.inl rfl) hnext, fun _ hget => by cases hget⟩)
  | push t value =>
    rcases t with w | p
    · simp only [next] at hnext
      split at hnext
      · next task hloop =>
        obtain ⟨queue, hqueue, rfl⟩ := Option.map_eq_some_iff.mp hnext
        -- A task that calls `Push`.
        have hpc := hqueue
        simp only [TaskQueue.next] at hpc
        split at hpc
        · obtain rfl := Option.some.inj hpc
          exact .inr (.inl ⟨_, .of_worker_stays rfl rfl hqueue hloop rfl (by simp [Pc.pushes]),
            fun _ hget => by cases hget⟩)
        · cases hpc
      · cases hnext
    · exact .inr (.inl ⟨_, moves_of_pusher h rfl (.inr ⟨value, rfl⟩) hnext,
        fun _ hget => by cases hget⟩)
  | wakeUp t =>
    obtain ⟨queue, hqueue, rfl⟩ := Option.map_eq_some_iff.mp hnext
    have hgoTo := hqueue
    simp only [TaskQueue.next] at hgoTo
    split at hgoTo
    · next hpc =>
      obtain rfl := Option.some.inj hgoTo
      exact .inr (.inl ⟨_, moves_of_wait h rfl rfl hpc rfl rfl hqueue, fun _ hget => by cases hget⟩)
    · cases hgoTo
  | waitFails t =>
    obtain ⟨queue, hqueue, rfl⟩ := Option.map_eq_some_iff.mp hnext
    have hgoTo := hqueue
    simp only [TaskQueue.next] at hgoTo
    split at hgoTo
    · next hpc =>
      obtain rfl := Option.some.inj hgoTo
      exact .inr (.inl ⟨_, moves_of_wait h rfl rfl hpc rfl rfl hqueue, fun _ hget => by cases hget⟩)
    · cases hgoTo
  | write value =>
    obtain ⟨-, hs'⟩ := Option.ite_none_right_eq_some.mp hnext
    obtain rfl := Option.some.inj hs'
    exact .inr (.inr (.inr ⟨rfl, rfl, Iff.rfl, .inr ⟨value, rfl⟩⟩))
  | stop =>
    simp only [next] at hnext
    split at hnext
    · next hstopper =>
      exact .inr (.inr (.inl ⟨rfl, hstopper, (Option.some.inj hnext).symm⟩))
    · cases hnext
  | join =>
    simp only [next] at hnext
    split at hnext
    · next i hstopper =>
      -- A worker that has left its loop is joined, or there are no more of them.
      split_ifs at hnext
      · split at hnext
        · obtain rfl := Option.some.inj hnext
          exact .inr (.inr (.inr ⟨rfl, rfl, by simp [hstopper], .inl rfl⟩))
        · cases hnext
      · obtain rfl := Option.some.inj hnext
        exact .inr (.inr (.inr ⟨rfl, rfl, by simp [hstopper], .inl rfl⟩))
    · cases hnext

/-! ## The invariant -/

/-- A step of the queue keeps the invariant. -/
theorem Invariant.of_moves {ql : TaskQueue.Label (Fin size ⊕ P) V} (h : Invariant s)
    (hmoves : Moves l s s' ql) : Invariant s' := by
  have hstep := step_of_next hmoves.next_eq
  -- who is outside of a call is not woken
  have hother : ∀ t, t ≠ ql.thread →
      (s'.queue.pc t = .idle ↔ s.queue.pc t = .idle) ∧
        (s'.queue.pc t).pushes = (s.queue.pc t).pushes := by
    intro t ht
    rcases pc_of_next hmoves.next_eq ht with hpc | ⟨-, hpc, hpc'⟩
    · simp [hpc]
    · simp [hpc, hpc', Pc.pushes]
  refine ⟨h.exclusive.step hstep, ?_, ?_, ?_⟩
  · intro w hw
    by_cases ht : .inl w = ql.thread
    · exact hmoves.outside w ht hw
    · rw [hmoves.loop_eq w ht] at hw
      exact (hother _ ht).1.mpr (h.outside w hw)
  · intro w
    by_cases ht : .inl w = ql.thread
    · exact hmoves.getting w ht
    · rw [hmoves.loop_eq w ht, (hother _ ht).2]
      exact h.getting w
  · intro p
    by_cases ht : .inr p = ql.thread
    · exact hmoves.pusher p ht
    · rw [(hother _ ht).2]
      exact h.pusher p

/-- Every step keeps the invariant. -/
theorem Invariant.next (h : Invariant s) (hnext : s.next k l = some s') : Invariant s' := by
  rcases next_cases h hnext with ⟨w, p, -, rfl, hout, hidle, -⟩ | ⟨ql, hmoves, -⟩ |
    ⟨-, -, rfl⟩ | ⟨hqueue, hloop, -, -⟩
  · -- A worker that goes on outside of the queue.
    have hget : (s.queue.pc (.inl w)).pushes = true := by simp [hidle, Pc.pushes]
    refine ⟨h.exclusive, ?_, ?_, h.pusher⟩
    · intro w' hw'
      by_cases hw : w' = w
      · rwa [hw]
      · rw [goTo_loop_of_ne s hw] at hw'
        exact h.outside w' hw'
    · intro w'
      by_cases hw : w' = w
      · subst hw
        rw [goTo_loop_self]
        show p = .getting ↔ (s.queue.pc (.inl w')).pushes = false
        rw [hget]
        refine ⟨?_, by simp⟩
        rintro rfl
        cases hout
      · rw [goTo_loop_of_ne s hw]
        exact h.getting w'
  · exact h.of_moves hmoves
  · exact ⟨h.exclusive, h.outside, h.getting, h.pusher⟩
  · exact ⟨hqueue ▸ h.exclusive, by rw [hqueue, hloop]; exact h.outside,
      by rw [hqueue, hloop]; exact h.getting, by rw [hqueue]; exact h.pusher⟩

/-- The invariant holds at the start. -/
theorem invariant_init (k : LoopKind F) : Invariant (workers k size P V).init where
  exclusive := by
    constructor <;> simp [workers, start, Pc.locked, Pc.Knows, Pc.held]
  outside _ _ := rfl
  getting _ := ⟨nofun, nofun⟩
  pusher _ := rfl

/-- The invariant holds in every reachable state. -/
theorem invariant_of_reachable (h : (workers k size P V).Reachable s) : Invariant s := by
  apply h.invariant (P := fun s => Invariant s) (invariant_init k)
  intro s l s' hs hnext
  exact hs.next hnext

/-! ## Progress -/

/-- A worker that has not left its loop and is in no call of the queue goes on. -/
theorem exists_next_of_idle {w : Fin size} (h : Invariant s) (hw : s.loop w ≠ .exited)
    (hidle : s.queue.pc (.inl w) = .idle) : ∃ s', s.next k (.run (.inl w)) = some s' := by
  cases hloop : s.loop w
  case test | sleeping => exact ⟨_, by rw [next, step, hloop]⟩
  case tested =>
    by_cases hserves : k.serves s.flag = true
    · have hget : s.queue.next (.get (.inl w)) = some (s.queue.goTo (.inl w) .getAcquire) := by
        simp [TaskQueue.next, hidle]
      refine ⟨{ s.goTo w .getting with queue := s.queue.goTo (.inl w) .getAcquire }, ?_⟩
      simp only [next, step, hloop, if_pos hserves]
      exact Option.map_eq_some_iff.mpr ⟨_, hget, rfl⟩
    · exact ⟨s.goTo w .sleeping, by simp only [next, step, hloop, if_neg hserves]⟩
  case getting =>
    have hpushes := (h.getting w).mp hloop
    rw [hidle] at hpushes
    cases hpushes
  case running task => exact ⟨s.goTo w .test, by simp only [next, step, hloop, hidle]⟩
  case exited => exact absurd hloop hw

/-- A thread inside of a call goes on where the queue allows it. -/
theorem exists_next_of_run {t : Fin size ⊕ P} {queue : TaskQueue (Fin size ⊕ P) V}
    (h : Invariant s) (hidle : s.queue.pc t ≠ .idle)
    (hqueue : s.queue.next (.run t) = some queue) : ∃ s', s.next k (.run t) = some s' := by
  have hstep : ∀ s₁ : Workers F size P V, s₁.queue = s.queue →
      ∃ s', s₁.queueStep (.run t) = some s' := by
    intro s₁ hs₁
    exact ⟨_, Option.map_eq_some_iff.mpr ⟨queue, hs₁ ▸ hqueue, rfl⟩⟩
  rcases t with w | p
  · cases hloop : s.loop w
    case getting =>
      simp only [next, step, hloop]
      split
      · exact hstep _ rfl
      · exact hstep _ rfl
      · exact hstep _ rfl
    case running task =>
      simp only [next, step, hloop]
      exact hstep _ rfl
    all_goals exact absurd (h.outside w (by rw [hloop]; rfl)) hidle
  · exact hstep s rfl

end Workers

/-! ## The thread pool -/

/-- `ThreadMain`, with `stop_`. -/
def threadMain : LoopKind Bool where
  initial := false
  stopValue := true
  leaves stop := stop
  leaves_stopValue := rfl
  serves _ := true
  writes _ := false

/-- A pool of `size` workers, whose tasks are those of `V`. -/
def threadPool (size : Nat) (P V : Type) [DecidableEq P] :
    TransitionSystem (Workers Bool size P V) (WorkersLabel Bool size P V) :=
  workers threadMain size P V

end MosqCluster
