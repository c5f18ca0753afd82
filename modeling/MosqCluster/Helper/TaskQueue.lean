import Mathlib.Data.List.Basic
import Mathlib.Logic.Function.Basic
import MosqCluster.Foundation.TransitionSystem

/-!
# The task queue

`TaskQueue` of `helper/task_queue_posix.h` over `WaitableImplPosix` of
`helper/waitable_impl_posix.cpp`: any number of threads call `Push` and `Get`, interleaved between
any two statements. `Get` waits without a time limit (`Wait(-1, this)`). The mutex is one field that
names its holder, and a thread is blocked on the condition variable exactly while it stands at
`Pc.waiting`: `pthread_cond_wait` gives up the mutex and blocks in one step, a broadcast moves every
blocked thread on, and a blocked thread may move on by itself at any time.

The history fields record what is pushed, who takes the mutex, and what each `Get` takes out and
returns.

## Main definitions

* `TaskQueue.Pc`: where a thread stands in `Push`, `Get`, `Wait` or outside of them;
* `taskQueue`: the transition system;
* `TaskQueue.ExactlyOnceFifo` and `TaskQueue.NoLostWakeUp`: what the queue promises.

## Main results

* `exactlyOnceFifo_and_noLostWakeUp`: every reachable state keeps both promises.
-/

namespace MosqCluster

/-! ## Model -/

namespace TaskQueue

/-- Where a thread stands. -/
inductive Pc (V : Type*)
  /-- Outside of `Push` and `Get`. -/
  | idle
  /-- `Push`, before `qlock_.Acquire()`. -/
  | pushAcquire (value : V)
  /-- `Push`, before `queue_.push(value)`. -/
  | pushing (value : V)
  /-- `Push`, before `qlock_.Release()`. -/
  | pushRelease
  /-- `Push`, before `qlock_.Broadcast()`. -/
  | broadcast
  /-- `Wait`, before `lock_.Acquire()`. -/
  | getAcquire
  /-- `Wait`, before `checker->wait()`. -/
  | checkWait
  /-- `Wait`, before `pthread_cond_wait`. -/
  | condWait
  /-- Blocked in `pthread_cond_wait`, not signalled. -/
  | waiting
  /-- In `pthread_cond_wait`, before it takes the mutex again. -/
  | woken
  /-- `Wait`, before `lock_.Release()` of a wait that failed. -/
  | waitFailed
  /-- `Get`, before `if (!queue_.empty())`. -/
  | checkEmpty
  /-- `Get`, before `value = queue_.front()`. -/
  | front
  /-- `Get`, before `queue_.pop()`. -/
  | popping (value : V)
  /-- `Get`, before `qlock_.Release()`. -/
  | getRelease (result : Option V)
  /-- `Get`, before it returns. -/
  | getReturn (result : Option V)
  deriving DecidableEq

/-- A value that a `Get` has taken out of the queue. -/
structure Taken (Thread V : Type*) where
  /-- How many times the mutex had been taken before this `Get` took it. -/
  turn : Nat
  /-- The thread that called `Get`. -/
  thread : Thread
  /-- The value. -/
  value : V

/-- One step of one thread. -/
inductive Label (Thread V : Type*)
  /-- A thread calls `Push`. -/
  | push (t : Thread) (value : V)
  /-- A thread calls `Get`. -/
  | get (t : Thread)
  /-- The next statement of a thread. -/
  | run (t : Thread)
  /-- A blocked thread wakes up without a signal. -/
  | wakeUp (t : Thread)
  /-- `pthread_cond_wait` fails. -/
  | waitFails (t : Thread)

end TaskQueue

/-- The queue, its mutex, where every thread stands, and the history. -/
structure TaskQueue (Thread V : Type*) where
  /-- The thread that holds `qlock_`. -/
  mutex : Option Thread
  /-- Where each thread stands. -/
  pc : Thread → TaskQueue.Pc V
  /-- `queue_`. -/
  queue : List V
  /-- History: the threads that took the mutex, in order. -/
  acquired : List Thread
  /-- History: everything pushed, in push order. -/
  pushed : List V
  /-- History: what the calls of `Get` took out, in order. -/
  taken : List (TaskQueue.Taken Thread V)
  /-- History: the results of the calls of `Get` that have returned, in order. -/
  returned : List (Thread × Option V)

namespace TaskQueue

variable {Thread V : Type*}

/-- An empty queue that nobody uses. -/
def start : TaskQueue Thread V where
  mutex := none
  pc := fun _ => .idle
  queue := []
  acquired := []
  pushed := []
  taken := []
  returned := []

/-- `TaskQueue::wait`. -/
def wait (q : TaskQueue Thread V) : Bool := q.queue.isEmpty

variable [DecidableEq Thread]

/-- A thread goes on to another statement. -/
def goTo (q : TaskQueue Thread V) (t : Thread) (p : Pc V) : TaskQueue Thread V :=
  { q with pc := Function.update q.pc t p }

@[simp]
theorem goTo_pc_self (q : TaskQueue Thread V) (t : Thread) (p : Pc V) : (q.goTo t p).pc t = p :=
  Function.update_self ..

theorem goTo_pc_of_ne (q : TaskQueue Thread V) {t t' : Thread} (h : t' ≠ t) (p : Pc V) :
    (q.goTo t p).pc t' = q.pc t' :=
  Function.update_of_ne h ..

/-- `Acquire`, which blocks while the mutex is held. -/
def acquire (q : TaskQueue Thread V) (t : Thread) (p : Pc V) : Option (TaskQueue Thread V) :=
  if q.mutex = none then
    some { q.goTo t p with mutex := some t, acquired := q.acquired ++ [t] }
  else none

/-- `Release`. -/
def release (q : TaskQueue Thread V) (t : Thread) (p : Pc V) : TaskQueue Thread V :=
  { q.goTo t p with mutex := none }

/-- `Broadcast`: no thread stays blocked. -/
def wakeAll (q : TaskQueue Thread V) : TaskQueue Thread V :=
  { q with pc := fun t => match q.pc t with
      | .waiting => .woken
      | p => p }

/-- The next statement of a thread that stands at `p`. -/
def runStep (q : TaskQueue Thread V) (t : Thread) : Pc V → Option (TaskQueue Thread V)
  | .pushAcquire value => q.acquire t (.pushing value)
  | .pushing value =>
    some { q.goTo t .pushRelease with
      queue := q.queue ++ [value]
      pushed := q.pushed ++ [value] }
  | .pushRelease => some (q.release t .broadcast)
  | .broadcast => some (q.wakeAll.goTo t .idle)
  | .getAcquire => q.acquire t .checkWait
  -- `return 0` of `Wait` leads into the body of `Get`.
  | .checkWait => some (q.goTo t (if q.wait then .condWait else .checkEmpty))
  | .condWait => some (q.release t .waiting)
  | .woken => q.acquire t .checkEmpty
  | .waitFailed => some (q.release t (.getReturn none))
  -- The condition is tested once: a thread that wakes up to an empty queue gives up.
  | .checkEmpty => some (q.goTo t (if q.queue.isEmpty then .getRelease none else .front))
  | .front => q.queue.head?.map fun value => q.goTo t (.popping value)
  | .popping value =>
    some { q.goTo t (.getRelease (some value)) with
      queue := q.queue.tail
      taken := q.taken ++ [⟨q.acquired.length - 1, t, value⟩] }
  | .getRelease result => some (q.release t (.getReturn result))
  | .getReturn result =>
    some { q.goTo t .idle with returned := q.returned ++ [(t, result)] }
  | .idle | .waiting => none

/-- One step. -/
def next (q : TaskQueue Thread V) : Label Thread V → Option (TaskQueue Thread V)
  | .push t value =>
    match q.pc t with
    | .idle => some (q.goTo t (.pushAcquire value))
    | _ => none
  | .get t =>
    match q.pc t with
    | .idle => some (q.goTo t .getAcquire)
    | _ => none
  | .run t => q.runStep t (q.pc t)
  | .wakeUp t =>
    match q.pc t with
    | .waiting => some (q.goTo t .woken)
    | _ => none
  | .waitFails t =>
    match q.pc t with
    | .condWait => some (q.goTo t .waitFailed)
    | _ => none

/-! ## What a step does -/

/-- A thread goes on without touching the mutex, the queue or the history. -/
inductive GoesTo (queue : List V) : Pc V → Pc V → Prop
  | push (value : V) : GoesTo queue .idle (.pushAcquire value)
  | get : GoesTo queue .idle .getAcquire
  | wakeUp : GoesTo queue .waiting .woken
  | waitFails : GoesTo queue .condWait .waitFailed
  | mustWait : queue = [] → GoesTo queue .checkWait .condWait
  | mayGo : GoesTo queue .checkWait .checkEmpty
  | giveUp : GoesTo queue .checkEmpty (.getRelease none)
  | take : queue ≠ [] → GoesTo queue .checkEmpty .front
  | front (value : V) : queue.head? = some value → GoesTo queue .front (.popping value)

/-- A thread takes the mutex. -/
inductive Acquires : Pc V → Pc V → Prop
  | push (value : V) : Acquires (.pushAcquire value) (.pushing value)
  | get : Acquires .getAcquire .checkWait
  | wake : Acquires .woken .checkEmpty

/-- A thread gives up the mutex. -/
inductive Releases : Pc V → Pc V → Prop
  | push : Releases .pushRelease .broadcast
  | wait : Releases .condWait .waiting
  | waitFailed : Releases .waitFailed (.getReturn none)
  | get (result : Option V) : Releases (.getRelease result) (.getReturn result)

/-- One step, by what it does. -/
inductive Step (q : TaskQueue Thread V) : TaskQueue Thread V → Prop
  | goTo (t : Thread) (p : Pc V) : GoesTo q.queue (q.pc t) p → Step q (q.goTo t p)
  | acquire (t : Thread) (p : Pc V) : Acquires (q.pc t) p → q.mutex = none →
      Step q { q.goTo t p with mutex := some t, acquired := q.acquired ++ [t] }
  | release (t : Thread) (p : Pc V) : Releases (q.pc t) p → Step q (q.release t p)
  | broadcast (t : Thread) : q.pc t = .broadcast → Step q (q.wakeAll.goTo t .idle)
  | push (t : Thread) (value : V) : q.pc t = .pushing value → Step q
      { q.goTo t .pushRelease with
        queue := q.queue ++ [value]
        pushed := q.pushed ++ [value] }
  | pop (t : Thread) (value : V) : q.pc t = .popping value → Step q
      { q.goTo t (.getRelease (some value)) with
        queue := q.queue.tail
        taken := q.taken ++ [⟨q.acquired.length - 1, t, value⟩] }
  | returns (t : Thread) (result : Option V) : q.pc t = .getReturn result → Step q
      { q.goTo t .idle with returned := q.returned ++ [(t, result)] }

variable {q q' : TaskQueue Thread V} {l : Label Thread V}

/-- Taking the mutex. -/
theorem step_of_acquire {t : Thread} {p : Pc V} (hp : Acquires (q.pc t) p)
    (h : q.acquire t p = some q') : Step q q' := by
  obtain ⟨hfree, h⟩ := Option.ite_none_right_eq_some.mp h
  cases h
  exact .acquire t p hp hfree

/-- The next statement of a thread. -/
theorem step_of_runStep {t : Thread} (h : q.runStep t (q.pc t) = some q') : Step q q' := by
  cases hpc : q.pc t with
  | idle | waiting => simp [hpc, runStep] at h
  | pushAcquire value =>
    rw [hpc] at h
    exact step_of_acquire (hpc ▸ .push value) h
  | getAcquire =>
    rw [hpc] at h
    exact step_of_acquire (hpc ▸ .get) h
  | woken =>
    rw [hpc] at h
    exact step_of_acquire (hpc ▸ .wake) h
  | pushing value =>
    rw [hpc] at h
    cases h
    exact .push t value hpc
  | pushRelease =>
    rw [hpc] at h
    cases h
    exact .release t _ (hpc ▸ .push)
  | condWait =>
    rw [hpc] at h
    cases h
    exact .release t _ (hpc ▸ .wait)
  | waitFailed =>
    rw [hpc] at h
    cases h
    exact .release t _ (hpc ▸ .waitFailed)
  | getRelease result =>
    rw [hpc] at h
    cases h
    exact .release t _ (hpc ▸ .get result)
  | broadcast =>
    rw [hpc] at h
    cases h
    exact .broadcast t hpc
  | checkWait =>
    rw [hpc] at h
    cases h
    refine .goTo t _ (hpc ▸ ?_)
    by_cases hempty : q.queue = []
    · rw [if_pos (by simp [wait, hempty])]
      exact .mustWait hempty
    · rw [if_neg (by simp [wait, hempty])]
      exact .mayGo
  | checkEmpty =>
    rw [hpc] at h
    cases h
    refine .goTo t _ (hpc ▸ ?_)
    by_cases hempty : q.queue = []
    · rw [if_pos (by simp [hempty])]
      exact .giveUp
    · rw [if_neg (by simp [hempty])]
      exact .take hempty
  | front =>
    rw [hpc] at h
    -- The model has no step for `front` of an empty queue.
    obtain ⟨value, hvalue, rfl⟩ := Option.map_eq_some_iff.mp h
    exact .goTo t _ (hpc ▸ .front value hvalue)
  | popping value =>
    rw [hpc] at h
    cases h
    exact .pop t value hpc
  | getReturn result =>
    rw [hpc] at h
    cases h
    exact .returns t result hpc

/-- Every step is one of these. -/
theorem step_of_next (h : q.next l = some q') : Step q q' := by
  cases l with
  | push t value =>
    simp only [next] at h
    split at h <;> cases h
    exact .goTo t _ (‹q.pc t = _› ▸ .push value)
  | get t =>
    simp only [next] at h
    split at h <;> cases h
    exact .goTo t _ (‹q.pc t = _› ▸ .get)
  | run t => exact step_of_runStep h
  | wakeUp t =>
    simp only [next] at h
    split at h <;> cases h
    exact .goTo t _ (‹q.pc t = _› ▸ .wakeUp)
  | waitFails t =>
    simp only [next] at h
    split at h <;> cases h
    exact .goTo t _ (‹q.pc t = _› ▸ .waitFails)

/-! ## Mutual exclusion -/

/-- The statements between taking the mutex and giving it up. -/
def Pc.locked : Pc V → Bool
  | .pushing _ | .pushRelease | .checkWait | .condWait | .waitFailed | .checkEmpty | .front
  | .popping _ | .getRelease _ => true
  | _ => false

/-- What a thread has taken out and not yet returned. -/
def Pc.held : Pc V → List V
  | .getRelease (some value) | .getReturn (some value) => [value]
  | _ => []

/-- What the thread that stands at `p` knows of the queue. -/
def Pc.Knows (queue : List V) : Pc V → Prop
  | .condWait => queue = []
  | .front => queue ≠ []
  | .popping value => queue.head? = some value
  | _ => True

theorem Pc.knows_of_not_locked (queue : List V) {p : Pc V} (h : p.locked = false) :
    p.Knows queue := by
  cases p <;> first | exact trivial | cases h

omit [DecidableEq Thread] in
/-- After a broadcast no thread is blocked. -/
theorem wakeAll_pc_ne_waiting (t : Thread) : q.wakeAll.pc t ≠ .waiting := by
  show (match q.pc t with | .waiting => .woken | p => p) ≠ Pc.waiting
  split
  · nofun
  · assumption

omit [DecidableEq Thread] in
/-- A broadcast does not change what is the same for a blocked thread and one that is woken. -/
theorem wakeAll_congr {α : Type*} (f : Pc V → α) (hf : f .woken = f .waiting) {t : Thread} :
    f (q.wakeAll.pc t) = f (q.pc t) := by
  show f (match q.pc t with | .waiting => .woken | p => p) = f (q.pc t)
  split
  · rw [hf, ‹q.pc t = _›]
  · rfl

/-- What holds of the mutex in every reachable state. -/
structure Exclusive (q : TaskQueue Thread V) : Prop where
  /-- The holder is the thread that stands between taking the mutex and giving it up. -/
  locked : ∀ t, (q.pc t).locked = true ↔ q.mutex = some t
  /-- The holder is right about the queue. -/
  knows : ∀ t, (q.pc t).Knows q.queue
  /-- The holder is the last one that has taken the mutex. -/
  last : ∀ t, q.mutex = some t → q.acquired.getLast? = some t
  /-- Everything was taken out in an earlier turn, unless the holder has taken it out. -/
  earlier : ∀ t, q.mutex = some t → (q.pc t).held = [] →
    ∀ e ∈ q.taken, e.turn + 1 < q.acquired.length
  /-- Everything was taken out in some turn. -/
  past : ∀ e ∈ q.taken, e.turn < q.acquired.length

namespace Exclusive

omit [DecidableEq Thread] in
/-- While a thread stands under the mutex, the others do not. -/
theorem locked_of_ne (hq : q.Exclusive) {t t' : Thread} (ht : (q.pc t).locked = true)
    (hne : t' ≠ t) : (q.pc t').locked = false := by
  by_contra hlocked
  have ht' := (hq.locked t').mp (by simpa using hlocked)
  rw [(hq.locked t).mp ht] at ht'
  exact hne (Option.some.inj ht').symm

/-- A thread goes on without touching the mutex. -/
theorem goTo (hq : q.Exclusive) {t : Thread} {p : Pc V} (hlocked : p.locked = (q.pc t).locked)
    (hknows : p.Knows q.queue) (hheld : p.locked = true → p.held = [] → (q.pc t).held = []) :
    (q.goTo t p).Exclusive := by
  obtain ⟨locked, knows, last, earlier, past⟩ := hq
  constructor <;> simp only [TaskQueue.goTo] <;> grind

/-- A thread takes the mutex. -/
theorem acquire (hq : q.Exclusive) {t : Thread} {p : Pc V} (hfree : q.mutex = none)
    (hlocked : p.locked = true) (hknows : p.Knows q.queue) :
    { q.goTo t p with
      mutex := some t
      acquired := q.acquired ++ [t] : TaskQueue Thread V }.Exclusive := by
  obtain ⟨locked, knows, last, earlier, past⟩ := hq
  constructor <;> simp only [TaskQueue.goTo] <;> grind

/-- A thread gives up the mutex. -/
theorem release (hq : q.Exclusive) {t : Thread} {p : Pc V} (hpc : (q.pc t).locked = true)
    (hlocked : p.locked = false) : (q.release t p).Exclusive := by
  have hknows := Pc.knows_of_not_locked q.queue hlocked
  obtain ⟨locked, knows, last, earlier, past⟩ := hq
  constructor <;> simp only [TaskQueue.release, TaskQueue.goTo] <;> grind

/-- The thread that holds the mutex changes the queue. -/
theorem change (hq : q.Exclusive) {t : Thread} {p : Pc V} (hpc : (q.pc t).locked = true)
    (hlocked : p.locked = true) {queue pushed : List V} {taken : List (Taken Thread V)}
    (hknows : p.Knows queue)
    (hearlier : p.held = [] → ∀ e ∈ taken, e.turn + 1 < q.acquired.length)
    (hpast : ∀ e ∈ taken, e.turn < q.acquired.length) :
    { q.goTo t p with
      queue := queue
      pushed := pushed
      taken := taken : TaskQueue Thread V }.Exclusive := by
  have hmutex := (hq.locked t).mp hpc
  have hother : ∀ t' ≠ t, (q.pc t').Knows queue := fun t' hne =>
    Pc.knows_of_not_locked queue (hq.locked_of_ne hpc hne)
  obtain ⟨locked, knows, last, earlier, past⟩ := hq
  constructor <;> simp only [TaskQueue.goTo] <;> grind

omit [DecidableEq Thread] in
/-- Waking the blocked threads changes nothing about the mutex. -/
theorem wakeAll (hq : q.Exclusive) : q.wakeAll.Exclusive where
  locked t := by
    rw [wakeAll_congr Pc.locked rfl]
    exact hq.locked t
  knows t := by
    rw [wakeAll_congr (Pc.Knows q.wakeAll.queue) rfl]
    exact hq.knows t
  last := hq.last
  earlier t := by
    rw [wakeAll_congr Pc.held rfl]
    exact hq.earlier t
  past := hq.past

/-- Every step keeps the mutex exclusive. -/
theorem step (hq : q.Exclusive) (h : Step q q') : q'.Exclusive := by
  cases h with
  | goTo t p hp =>
    refine hq.goTo ?_ ?_ ?_ <;> generalize q.pc t = p' at hp <;> cases hp <;>
      simp [Pc.locked, Pc.Knows, Pc.held, *]
  | acquire t p hp hfree =>
    refine hq.acquire hfree ?_ ?_ <;> generalize q.pc t = p' at hp <;> cases hp <;>
      simp [Pc.locked, Pc.Knows]
  | release t p hp =>
    refine hq.release ?_ ?_ <;> generalize q.pc t = p' at hp <;> cases hp <;> rfl
  | broadcast t hpc =>
    refine hq.wakeAll.goTo ?_ trivial nofun
    rw [wakeAll_congr Pc.locked rfl, hpc]
    rfl
  | push t value hpc =>
    refine hq.change (by rw [hpc]; rfl) rfl trivial (fun _ => ?_) hq.past
    have hmutex := (hq.locked t).mp (by rw [hpc]; rfl)
    exact hq.earlier t hmutex (by rw [hpc]; rfl)
  | pop t value hpc =>
    have hmutex := (hq.locked t).mp (by rw [hpc]; rfl)
    refine hq.change (by rw [hpc]; rfl) rfl trivial nofun (fun e he => ?_)
    rcases List.mem_append.mp he with he | he
    · exact hq.past e he
    · -- the turn is the one in which the thread itself has taken the mutex
      obtain rfl := List.mem_singleton.mp he
      have hne : q.acquired ≠ [] := by
        rintro hnil
        simpa [hnil] using hq.last t hmutex
      exact Nat.sub_lt (List.length_pos_iff.mpr hne) Nat.one_pos
  | returns t result hpc =>
    have hidle := hq.goTo (t := t) (p := .idle) (by rw [hpc]; rfl) trivial nofun
    exact ⟨hidle.locked, hidle.knows, hidle.last, hidle.earlier, hidle.past⟩

end Exclusive

/-! ## Order -/

/-- The values that the calls of `Get` by one thread have returned, in order. -/
def results (q : TaskQueue Thread V) (t : Thread) : List V :=
  q.returned.filterMap fun r => if r.1 = t then r.2 else none

/-- Exactly-once FIFO order. -/
structure ExactlyOnceFifo (q : TaskQueue Thread V) : Prop where
  /-- What was taken out, followed by the queue, is what was pushed, in push order. -/
  conserved : q.taken.map Taken.value ++ q.queue = q.pushed
  /-- Values are taken out in the order in which the calls of `Get` take the mutex. -/
  ordered : q.taken.Pairwise fun a b => a.turn < b.turn
  /-- A value is taken out by the thread that takes the mutex in its turn. -/
  turns : ∀ e ∈ q.taken, q.acquired[e.turn]? = some e.thread
  /-- A thread returns what it takes out, each value once and in order. -/
  returns : ∀ t, q.results t ++ (q.pc t).held =
    (q.taken.filter fun e => e.thread = t).map Taken.value

namespace ExactlyOnceFifo

/-- A step that neither enqueues nor takes out nor returns. -/
theorem of_frame (hq : q.ExactlyOnceFifo) (hqueue : q'.queue = q.queue)
    (hpushed : q'.pushed = q.pushed) (htaken : q'.taken = q.taken)
    (hreturned : q'.returned = q.returned) (hacquired : q.acquired <+: q'.acquired)
    (hheld : ∀ t, (q'.pc t).held = (q.pc t).held) : q'.ExactlyOnceFifo where
  conserved := by
    rw [htaken, hqueue, hpushed]
    exact hq.conserved
  ordered := htaken ▸ hq.ordered
  turns e he := by
    rw [htaken] at he
    obtain ⟨later, hlater⟩ := hacquired
    rw [← hlater, List.getElem?_append_left (List.getElem?_eq_some_iff.mp (hq.turns e he)).1]
    exact hq.turns e he
  returns t := by
    rw [htaken, hheld, ← hq.returns t, results, results, hreturned]

/-- The result of a `Get` is what it has taken out. -/
theorem held_goTo {t : Thread} {p : Pc V} (h : p.held = (q.pc t).held) (t' : Thread) :
    ((q.goTo t p).pc t').held = (q.pc t').held := by
  by_cases ht : t' = t
  · rw [ht, goTo_pc_self, h]
  · rw [goTo_pc_of_ne q ht]

/-- `queue_.push`. -/
theorem push (hq : q.ExactlyOnceFifo) {t : Thread} {value : V} (hpc : q.pc t = .pushing value) :
    { q.goTo t .pushRelease with
      queue := q.queue ++ [value]
      pushed := q.pushed ++ [value] : TaskQueue Thread V }.ExactlyOnceFifo where
  conserved := by
    show q.taken.map Taken.value ++ (q.queue ++ [value]) = q.pushed ++ [value]
    rw [← List.append_assoc, hq.conserved]
  ordered := hq.ordered
  turns := hq.turns
  returns t' := by
    have hheld : ((q.goTo t .pushRelease).pc t').held = (q.pc t').held :=
      held_goTo (by rw [hpc]; rfl) t'
    exact (congrArg (q.results t' ++ ·) hheld).trans (hq.returns t')

/-- `queue_.pop`. -/
theorem pop (hq : q.ExactlyOnceFifo) (hexclusive : q.Exclusive) {t : Thread} {value : V}
    (hpc : q.pc t = .popping value) :
    { q.goTo t (.getRelease (some value)) with
      queue := q.queue.tail
      taken := q.taken ++ [⟨q.acquired.length - 1, t, value⟩] :
        TaskQueue Thread V }.ExactlyOnceFifo := by
  have hmutex := (hexclusive.locked t).mp (by rw [hpc]; rfl)
  have hearlier := hexclusive.earlier t hmutex (by rw [hpc]; rfl)
  have hlast := hexclusive.last t hmutex
  have hhead : q.queue.head? = some value := by
    have := hexclusive.knows t
    rwa [hpc] at this
  constructor
  · -- the value at the front moves from the queue to the end of the history
    obtain ⟨rest, hqueue⟩ := List.head?_eq_some_iff.mp hhead
    show (q.taken ++ [_]).map Taken.value ++ q.queue.tail = q.pushed
    rw [← hq.conserved, hqueue]
    simp
  · refine List.pairwise_append.mpr ⟨hq.ordered, List.pairwise_singleton .., ?_⟩
    intro a ha b hb
    obtain rfl := List.mem_singleton.mp hb
    have := hearlier a ha
    show a.turn < q.acquired.length - 1
    omega
  · intro e he
    rcases List.mem_append.mp he with he | he
    · exact hq.turns e he
    · obtain rfl := List.mem_singleton.mp he
      rwa [List.getLast?_eq_getElem?] at hlast
  · intro t'
    have hreturns := hq.returns t'
    by_cases ht : t' = t
    · subst ht
      rw [hpc] at hreturns
      simpa [results, TaskQueue.goTo, Pc.held] using hreturns
    · simpa [results, TaskQueue.goTo, Function.update_of_ne ht, Ne.symm ht] using hreturns

/-- `Get` returns. -/
theorem returned (hq : q.ExactlyOnceFifo) {t : Thread} {result : Option V}
    (hpc : q.pc t = .getReturn result) :
    { q.goTo t .idle with
      returned := q.returned ++ [(t, result)] : TaskQueue Thread V }.ExactlyOnceFifo where
  conserved := hq.conserved
  ordered := hq.ordered
  turns := hq.turns
  returns t' := by
    have hreturns := hq.returns t'
    by_cases ht : t' = t
    · subst ht
      rw [hpc] at hreturns
      cases result <;> simpa [results, TaskQueue.goTo, Pc.held] using hreturns
    · simpa [results, TaskQueue.goTo, Function.update_of_ne ht, Ne.symm ht] using hreturns

/-- Every step keeps the order. -/
theorem step (hq : q.ExactlyOnceFifo) (hexclusive : q.Exclusive) (h : Step q q') :
    q'.ExactlyOnceFifo := by
  cases h with
  | goTo t p hp =>
    refine hq.of_frame rfl rfl rfl rfl (List.prefix_refl _) (held_goTo ?_)
    generalize q.pc t = p' at hp
    cases hp <;> rfl
  | acquire t p hp hfree =>
    refine hq.of_frame rfl rfl rfl rfl (List.prefix_append _ _) (held_goTo ?_)
    generalize q.pc t = p' at hp
    cases hp <;> rfl
  | release t p hp =>
    refine hq.of_frame rfl rfl rfl rfl (List.prefix_refl _) (held_goTo ?_)
    generalize q.pc t = p' at hp
    rcases hp with _ | _ | _ | (_ | _) <;> rfl
  | broadcast t hpc =>
    refine hq.of_frame rfl rfl rfl rfl (List.prefix_refl _) fun t' => ?_
    rw [held_goTo (by rw [wakeAll_congr Pc.held rfl, hpc]; rfl), wakeAll_congr Pc.held rfl]
  | push t value hpc => exact hq.push hpc
  | pop t value hpc => exact hq.pop hexclusive hpc
  | returns t result hpc => exact hq.returned hpc

end ExactlyOnceFifo

/-! ## Wake-ups -/

/-- Between enqueuing a value and the broadcast. -/
def Pc.owesBroadcast : Pc V → Bool
  | .pushRelease | .broadcast => true
  | _ => false

/-- While the queue is not empty and a thread is blocked, a `Push` that has enqueued its value has
not yet broadcast. -/
def NoLostWakeUp (q : TaskQueue Thread V) : Prop :=
  q.queue ≠ [] → (∃ t, q.pc t = .waiting) → ∃ t, (q.pc t).owesBroadcast = true

namespace NoLostWakeUp

/-- A thread goes on that does not block, and does not owe a broadcast. -/
theorem of_goTo (hq : q.NoLostWakeUp) {t : Thread} {p : Pc V} (hpc : q'.pc = (q.goTo t p).pc)
    (hqueue : q'.queue ≠ [] → q.queue ≠ []) (hwaiting : p ≠ .waiting)
    (howes : (q.pc t).owesBroadcast = false) : q'.NoLostWakeUp := by
  rintro hne ⟨t', ht'⟩
  rw [hpc] at ht' ⊢
  have hother : t' ≠ t := by
    rintro rfl
    exact hwaiting (by rwa [goTo_pc_self] at ht')
  rw [goTo_pc_of_ne q hother] at ht'
  obtain ⟨u, hu⟩ := hq (hqueue hne) ⟨t', ht'⟩
  have hut : u ≠ t := by
    rintro rfl
    exact absurd hu (by simp [howes])
  exact ⟨u, by rwa [goTo_pc_of_ne q hut]⟩

/-- Every step keeps the promise. -/
theorem step (hq : q.NoLostWakeUp) (hexclusive : q.Exclusive) (h : Step q q') :
    q'.NoLostWakeUp := by
  cases h with
  | goTo t p hp =>
    refine hq.of_goTo rfl id ?_ ?_ <;> generalize q.pc t = p' at hp <;> cases hp <;>
      simp [Pc.owesBroadcast]
  | acquire t p hp hfree =>
    refine hq.of_goTo rfl id ?_ ?_ <;> generalize q.pc t = p' at hp <;> cases hp <;>
      simp [Pc.owesBroadcast]
  | release t p hp =>
    generalize hpc : q.pc t = p' at hp
    cases hp with
    | push => exact fun _ _ => ⟨t, congrArg Pc.owesBroadcast (goTo_pc_self q t _)⟩
    | wait =>
      -- the thread has seen the queue empty, and holds the mutex since then
      have hempty : q.queue = [] := by
        have := hexclusive.knows t
        rwa [hpc] at this
      exact fun hne => absurd hempty hne
    | waitFailed => exact hq.of_goTo rfl id nofun (by rw [hpc]; rfl)
    | get result => exact hq.of_goTo rfl id nofun (by rw [hpc]; rfl)
  | broadcast t hpc =>
    rintro - ⟨t', ht'⟩
    have hwaiting : (q.wakeAll.goTo t .idle).pc t' ≠ .waiting := by
      by_cases hne : t' = t
      · rw [hne, goTo_pc_self]
        nofun
      · rw [goTo_pc_of_ne _ hne]
        exact wakeAll_pc_ne_waiting t'
    exact absurd ht' hwaiting
  | push t value hpc =>
    exact fun _ _ => ⟨t, congrArg Pc.owesBroadcast (goTo_pc_self q t _)⟩
  | pop t value hpc =>
    refine hq.of_goTo (p := .getRelease (some value)) rfl (fun hne hempty => ?_) nofun
      (by rw [hpc]; rfl)
    exact hne (by simp [hempty])
  | returns t result hpc => exact hq.of_goTo (p := .idle) rfl id nofun (by rw [hpc]; rfl)

end NoLostWakeUp

/-! ## Where threads go -/

variable {t : Thread}

/-- Outside of `Get`. -/
def Pc.pushes : Pc V → Bool
  | .idle | .pushAcquire _ | .pushing _ | .pushRelease | .broadcast => true
  | _ => false

/-- A statement moves its thread, and a broadcast wakes the others. -/
theorem pc_of_runStep (h : q.runStep t (q.pc t) = some q') :
    ∃ p, q'.pc = (q.goTo t p).pc ∨ q.pc t = .broadcast ∧ q'.pc = (q.wakeAll.goTo t p).pc := by
  cases hpc : q.pc t <;> rw [hpc] at h
  case idle | waiting => cases h
  case broadcast =>
    obtain rfl := Option.some.inj h
    exact ⟨_, .inr ⟨rfl, rfl⟩⟩
  case pushAcquire | getAcquire | woken =>
    obtain ⟨-, hq⟩ := Option.ite_none_right_eq_some.mp h
    obtain rfl := Option.some.inj hq
    exact ⟨_, .inl rfl⟩
  case front =>
    obtain ⟨value, -, rfl⟩ := Option.map_eq_some_iff.mp h
    exact ⟨_, .inl rfl⟩
  all_goals
    obtain rfl := Option.some.inj h
    exact ⟨_, .inl rfl⟩

/-- Where a statement leads to. -/
theorem pc_self_of_runStep (h : q.runStep t (q.pc t) = some q') :
    (q'.pc t = .waiting ↔ q.pc t = .condWait) ∧
      ((q'.pc t).pushes ↔ (q.pc t).pushes ∨ ∃ result, q.pc t = .getReturn result) ∧
      (q'.pc t = .idle ↔ q.pc t = .broadcast ∨ ∃ result, q.pc t = .getReturn result) := by
  cases hpc : q.pc t <;> rw [hpc] at h
  case idle | waiting => cases h
  case pushAcquire | getAcquire | woken =>
    obtain ⟨-, hq⟩ := Option.ite_none_right_eq_some.mp h
    obtain rfl := Option.some.inj hq
    simp [Pc.pushes]
  case front =>
    obtain ⟨value, -, rfl⟩ := Option.map_eq_some_iff.mp h
    simp [Pc.pushes]
  case checkWait | checkEmpty =>
    obtain rfl := Option.some.inj h
    rw [goTo_pc_self]
    split_ifs <;> simp [Pc.pushes]
  all_goals
    obtain rfl := Option.some.inj h
    simp [Pc.pushes, release]

omit [DecidableEq Thread] in
/-- A blocked thread is woken, another one stays. -/
theorem pc_wakeAll (t : Thread) :
    q.wakeAll.pc t = q.pc t ∨ q.pc t = .waiting ∧ q.wakeAll.pc t = .woken := by
  by_cases hpc : q.pc t = .waiting
  · exact .inr ⟨hpc, by simp [wakeAll, hpc]⟩
  · refine .inl ?_
    show (match q.pc t with | .waiting => .woken | p => p) = q.pc t
    split
    · next h => exact absurd h hpc
    · rfl

/-- The thread that takes a step. -/
def Label.thread : Label Thread V → Thread
  | .push t _ | .get t | .run t | .wakeUp t | .waitFails t => t

/-- The other threads stay where they are, unless a broadcast wakes them. -/
theorem pc_of_next (h : q.next l = some q') (ht : t ≠ l.thread) :
    q'.pc t = q.pc t ∨
      q.pc l.thread = .broadcast ∧ q.pc t = .waiting ∧ q'.pc t = .woken := by
  cases l
  case run t' =>
    obtain ⟨p, hp | ⟨hpc, hp⟩⟩ := pc_of_runStep h
    · rw [hp]
      exact .inl (goTo_pc_of_ne q ht p)
    · have hwake : q'.pc t = q.wakeAll.pc t := by
        rw [hp]
        exact goTo_pc_of_ne q.wakeAll ht p
      rw [hwake]
      exact (pc_wakeAll t).imp_right fun hwoken => ⟨hpc, hwoken⟩
  all_goals
    simp only [next] at h
    split at h
    · obtain rfl := Option.some.inj h
      exact .inl (goTo_pc_of_ne q ht _)
    · cases h

/-- The statement that broadcasts leaves no thread blocked. -/
theorem pc_ne_waiting_of_broadcast (hpc : q.pc t = .broadcast)
    (h : q.runStep t (q.pc t) = some q') (t' : Thread) : q'.pc t' ≠ .waiting := by
  rw [hpc] at h
  obtain rfl := Option.some.inj h
  by_cases ht : t' = t
  · rw [ht, goTo_pc_self]
    nofun
  · rw [goTo_pc_of_ne _ ht]
    exact wakeAll_pc_ne_waiting t'

/-- While a thread is inside of a call and not blocked, some thread inside of a call has a next
statement. -/
theorem exists_run (hq : q.Exclusive) (hidle : q.pc t ≠ .idle) (hwaiting : q.pc t ≠ .waiting) :
    ∃ t' q', q.pc t' ≠ .idle ∧ q.next (.run t') = some q' := by
  by_cases hrun : ∃ q', q.runStep t (q.pc t) = some q'
  · obtain ⟨q', h⟩ := hrun
    exact ⟨t, q', hidle, h⟩
  -- it waits for the mutex, whose holder goes on
  have hlocked : ∀ t, (q.pc t).locked = true → ∃ q', q.runStep t (q.pc t) = some q' := by
    intro t ht
    have hknows := hq.knows t
    cases hpc : q.pc t <;> rw [hpc] at ht hknows
    case front =>
      obtain ⟨value, rest, hqueue⟩ := List.exists_cons_of_ne_nil hknows
      exact ⟨_, by rw [runStep, hqueue]; rfl⟩
    all_goals first | exact ⟨_, rfl⟩ | cases ht
  cases hmutex : q.mutex with
  | none =>
    refine absurd ?_ hrun
    cases hpc : q.pc t
    case idle => exact absurd hpc hidle
    case waiting => exact absurd hpc hwaiting
    case pushAcquire | getAcquire | woken => exact ⟨_, if_pos hmutex⟩
    case broadcast | getReturn => exact ⟨_, rfl⟩
    all_goals
      rw [← hpc]
      exact hlocked t (by rw [hpc]; rfl)
  | some holder =>
    have hholder := (hq.locked holder).mpr hmutex
    obtain ⟨q', h⟩ := hlocked holder hholder
    refine ⟨holder, q', fun h0 => ?_, h⟩
    rw [h0] at hholder
    cases hholder

end TaskQueue

open TaskQueue

/-- The task queue as a transition system. -/
def taskQueue (Thread V : Type*) [DecidableEq Thread] :
    TransitionSystem (TaskQueue Thread V) (TaskQueue.Label Thread V) where
  init := .start
  next := TaskQueue.next

/-- In every reachable state, values leave the queue exactly once and in push order, and no thread
is blocked beside a value that nobody will announce. -/
theorem exactlyOnceFifo_and_noLostWakeUp {Thread V : Type*} [DecidableEq Thread]
    {q : TaskQueue Thread V} (h : (taskQueue Thread V).Reachable q) :
    q.ExactlyOnceFifo ∧ q.NoLostWakeUp := by
  have hinv : q.Exclusive ∧ q.ExactlyOnceFifo ∧ q.NoLostWakeUp := by
    refine h.invariant (P := fun q => q.Exclusive ∧ q.ExactlyOnceFifo ∧ q.NoLostWakeUp) ?_ ?_
    · refine ⟨⟨?_, ?_, ?_, ?_, ?_⟩, ⟨rfl, .nil, ?_, ?_⟩, ?_⟩ <;>
        simp [taskQueue, start, Pc.locked, Pc.Knows, Pc.held, results, NoLostWakeUp]
    · rintro q l q' ⟨hexclusive, hfifo, hwake⟩ hnext
      have hstep := step_of_next hnext
      exact ⟨hexclusive.step hstep, hfifo.step hexclusive hstep, hwake.step hexclusive hstep⟩
  exact hinv.2

/-- A thread that is blocked in `Get` when another one pushes is woken and returns the value. -/
theorem exactlyOnceFifo_and_noLostWakeUp_two_threads :
    ∃ q : TaskQueue Nat Nat, q.returned = [(0, some 7)] ∧ q.ExactlyOnceFifo ∧ q.NoLostWakeUp := by
  have hexec : ∃ q, (taskQueue Nat Nat).exec (taskQueue Nat Nat).init
      [.get 0, .run 0, .run 0, .run 0, .push 1 7, .run 1, .run 1, .run 1, .run 1,
        .run 0, .run 0, .run 0, .run 0, .run 0, .run 0] = some q ∧ q.returned = [(0, some 7)] :=
    ⟨_, rfl, rfl⟩
  obtain ⟨q, hexec, hreturned⟩ := hexec
  exact ⟨q, hreturned,
    exactlyOnceFifo_and_noLostWakeUp (TransitionSystem.reachable_of_exec hexec)⟩

end MosqCluster
