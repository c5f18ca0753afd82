import Mathlib.Algebra.Order.BigOperators.Group.Finset
import Mathlib.Data.Fintype.BigOperators
import MosqCluster.Helper.ThreadPool

/-!
# Stopping workers

When the workers of `ThreadPool` leave their loops after `Stop`, which does not touch the queue. A
worker that has tested the variable before goes on into `Get`, and blocks there if it finds the
queue empty; nobody but a `Push` wakes it.

So it depends on the state that `Stop` finds. Workers that have tested the variable and not yet
taken a task out are committed to the queue; each takes one task, and does not come again. While
there are as many tasks as committed workers, nobody blocks.

## Main definitions

* `Workers.demand` and `Workers.supply`: the committed workers, and the tasks in the queue or on
  their way into it;
* `Workers.Supplied`: whoever is blocked will be woken, and nobody can come to block, or there are
  tasks enough;
* `Workers.StopsSupplied` and `Workers.EndsWell`: steps that leave it at that.

## Main results

* `Workers.AfterStop.next`: after `Stop`, every step keeps the workers supplied;
* `Workers.shutsDown_of_endsWell`: then somebody has a next statement until all are done.
-/

/-- A sum in which one summand changes. -/
theorem sum_add_of_ne {α : Type*} [Fintype α] [DecidableEq α] {f g : α → ℕ} {a : α}
    (h : ∀ b, b ≠ a → g b = f b) : ∑ b, g b + f a = ∑ b, f b + g a := by
  have hrest : ∑ b ∈ Finset.univ.erase a, g b = ∑ b ∈ Finset.univ.erase a, f b :=
    Finset.sum_congr rfl fun b hb => h b (Finset.ne_of_mem_erase hb)
  rw [← Finset.add_sum_erase _ g (Finset.mem_univ a),
    ← Finset.add_sum_erase _ f (Finset.mem_univ a), hrest]
  omega

namespace MosqCluster

open TaskQueue

/-! ## What the threads do to the queue -/

namespace TaskQueue

variable {Thread V : Type*}

/-- In `Push`, before its value is in the queue. -/
def Pc.brings : Pc V → Bool
  | .pushAcquire _ | .pushing _ => true
  | _ => false

/-- In `Push`. -/
def Pc.inPush : Pc V → Bool
  | .pushAcquire _ | .pushing _ | .pushRelease | .broadcast => true
  | _ => false

/-- In `Get`, where it blocks if the queue is empty. -/
def Pc.mayBlock : Pc V → Bool
  | .getAcquire | .checkWait | .condWait => true
  | _ => false

/-- In `Get`, before a value is out of the queue. -/
def Pc.takes : Pc V → Bool
  | .getAcquire | .checkWait | .condWait | .waiting | .woken | .checkEmpty | .front
  | .popping _ => true
  | _ => false

theorem Pc.takes_of_mayBlock {p : Pc V} (h : p.mayBlock) : p.takes := by
  cases p <;> first | rfl | cases h

theorem Pc.inPush_of_brings {p : Pc V} (h : p.brings) : p.inPush := by
  cases p <;> first | rfl | cases h

theorem Pc.inPush_of_pushes {p : Pc V} (h : p.pushes) (hidle : p ≠ .idle) : p.inPush := by
  cases p <;> first | rfl | exact absurd rfl hidle | cases h

variable [DecidableEq Thread] {q q' : TaskQueue Thread V} {l : Label Thread V}

/-- The next statement of a thread takes no more out of the queue than it was to take, and brings
what it was to bring. -/
theorem balance_of_runStep (hq : q.Exclusive) {t : Thread} (h : q.runStep t (q.pc t) = some q') :
    (q'.pc t).takes.toNat + q.queue.length + (q.pc t).brings.toNat ≤
        (q.pc t).takes.toNat + q'.queue.length + (q'.pc t).brings.toNat ∧
      ((q'.pc t).mayBlock → (q.pc t).mayBlock) ∧
      ((q.pc t).inPush → (q'.pc t).inPush ∨ q.pc t = .broadcast) := by
  have hknows := hq.knows t
  cases hpc : q.pc t <;> rw [hpc] at h hknows
  case idle | waiting => cases h
  case pushAcquire | getAcquire | woken =>
    obtain ⟨-, hq⟩ := Option.ite_none_right_eq_some.mp h
    obtain rfl := Option.some.inj hq
    simp [Pc.takes, Pc.brings, Pc.mayBlock, Pc.inPush, TaskQueue.goTo]
  case front =>
    obtain ⟨value, -, rfl⟩ := Option.map_eq_some_iff.mp h
    simp [Pc.takes, Pc.brings, Pc.mayBlock, Pc.inPush, TaskQueue.goTo]
  case checkWait | checkEmpty =>
    obtain rfl := Option.some.inj h
    rw [goTo_pc_self]
    split_ifs <;> simp [Pc.takes, Pc.brings, Pc.mayBlock, Pc.inPush, TaskQueue.goTo]
  case popping value =>
    obtain rfl := Option.some.inj h
    -- the value is still at the front
    obtain ⟨rest, hqueue⟩ := List.head?_eq_some_iff.mp hknows
    simp [Pc.takes, Pc.brings, Pc.mayBlock, Pc.inPush, TaskQueue.goTo, hqueue, Nat.add_comm]
  all_goals
    obtain rfl := Option.some.inj h
    simp [Pc.takes, Pc.brings, Pc.mayBlock, Pc.inPush, TaskQueue.goTo, release, wakeAll]

/-- A step of the queue that is no call of `Get` does not ask for more than it brings. -/
theorem balance_of_next (hq : q.Exclusive) (h : q.next l = some q') (hget : ∀ t, l ≠ .get t) :
    (q'.pc l.thread).takes.toNat + q.queue.length + (q.pc l.thread).brings.toNat ≤
        (q.pc l.thread).takes.toNat + q'.queue.length + (q'.pc l.thread).brings.toNat ∧
      ((q'.pc l.thread).mayBlock → (q.pc l.thread).mayBlock) ∧
      ((q.pc l.thread).inPush → (q'.pc l.thread).inPush ∨ q.pc l.thread = .broadcast) := by
  cases l
  case run t => exact balance_of_runStep hq h
  case get t => exact absurd rfl (hget t)
  all_goals
    simp only [next] at h
    split at h
    · next hpc =>
      obtain rfl := Option.some.inj h
      simp [Label.thread, hpc, Pc.takes, Pc.brings, Pc.mayBlock, Pc.inPush, TaskQueue.goTo]
    · cases h

/-- A thread that comes to block was about to. -/
theorem condWait_of_waiting (h : q.next l = some q') (hwaiting : q'.pc l.thread = .waiting) :
    q.pc l.thread = .condWait := by
  cases l
  case run t => exact (pc_self_of_runStep h).1.mp hwaiting
  all_goals
    simp only [next] at h
    split at h
    · obtain rfl := Option.some.inj h
      simp [Label.thread] at hwaiting
    · cases h

/-- Where somebody is blocked after a step, no broadcast was the step. -/
theorem ne_broadcast_of_waiting {t : Thread} (h : q.next l = some q')
    (hwaiting : q'.pc t = .waiting) : q.pc l.thread ≠ .broadcast := by
  intro hpc
  cases l
  case run t' => exact pc_ne_waiting_of_broadcast hpc h t hwaiting
  all_goals
    simp only [next] at h
    simp only [Label.thread] at hpc
    simp [hpc] at h

end TaskQueue

/-! ## Supply and demand -/

/-- Behind the test of the variable, outside of the queue. -/
def WorkerPc.isTested {V : Type} : WorkerPc V → Bool
  | .tested => true
  | _ => false

namespace Workers

variable {F : Type} {size : Nat} {P V : Type}

/-- A worker that blocks if it finds the queue empty. -/
def MayBlock (k : LoopKind F) (s : Workers F size P V) (w : Fin size) : Bool :=
  (s.loop w).isTested && k.serves k.stopValue || (s.queue.pc (.inl w)).mayBlock

/-- A worker that has tested the variable and not yet taken a task out. -/
def Committed (k : LoopKind F) (s : Workers F size P V) : Fin size ⊕ P → Bool
  | .inl w => (s.loop w).isTested && k.serves k.stopValue || (s.queue.pc (.inl w)).takes
  | .inr _ => false

/-- How many workers are committed. -/
def demand [Fintype P] (k : LoopKind F) (s : Workers F size P V) : Nat :=
  ∑ t, (s.Committed k t).toNat

/-- How many tasks are in the queue or on their way into it. -/
def supply [Fintype P] (s : Workers F size P V) : Nat :=
  s.queue.queue.length + ∑ t, (s.queue.pc t).brings.toNat

/-- Whoever is blocked will be woken; and no worker can come to block, or there are tasks for all
that are committed. -/
structure Supplied [Fintype P] (k : LoopKind F) (s : Workers F size P V) : Prop where
  woken : (∃ w, s.queue.pc (.inl w) = .waiting) → ∃ t, (s.queue.pc t).inPush = true
  enough : (∀ w, s.MayBlock k w = false) ∨ s.demand k ≤ s.supply

instance [Fintype P] [DecidableEq V] (k : LoopKind F) (s : Workers F size P V) :
    Decidable (s.Supplied k) :=
  decidable_of_iff (((∃ w, s.queue.pc (.inl w) = .waiting) → ∃ t, (s.queue.pc t).inPush = true) ∧
      ((∀ w, s.MayBlock k w = false) ∨ s.demand k ≤ s.supply))
    ⟨fun h => ⟨h.1, h.2⟩, fun h => ⟨h.1, h.2⟩⟩

/-- `Stop` finds the workers supplied, and nobody else writes the variable after it. -/
def StopsSupplied [Fintype P] (k : LoopKind F) (s : Workers F size P V) :
    WorkersLabel F size P V → Prop
  | .stop => s.Supplied k
  | .write _ => s.stopper = .outside
  | _ => True

/-- Besides, no thread other than the workers is in `Push` when `Stop` is called, or calls it
afterwards. -/
def EndsWell [Fintype P] (k : LoopKind F) (s : Workers F size P V) :
    WorkersLabel F size P V → Prop
  | .stop => s.Supplied k ∧ ∀ p, (s.queue.pc (.inr p)).inPush = false
  | .write _ => s.stopper = .outside
  | .push (.inr _) _ => s.stopper = .outside
  | _ => True

section Decidable

variable [Fintype P] [DecidableEq V]

instance (k : LoopKind F) (s : Workers F size P V) (l : WorkersLabel F size P V) :
    Decidable (s.StopsSupplied k l) :=
  match l with
  | .stop => inferInstanceAs (Decidable (s.Supplied k))
  | .write _ => inferInstanceAs (Decidable (s.stopper = .outside))
  | .run _ | .push _ _ | .wakeUp _ | .waitFails _ | .join => .isTrue trivial

instance (k : LoopKind F) (s : Workers F size P V) (l : WorkersLabel F size P V) :
    Decidable (s.EndsWell k l) :=
  match l with
  | .stop =>
    inferInstanceAs (Decidable (s.Supplied k ∧ ∀ p, (s.queue.pc (.inr p)).inPush = false))
  | .write _ | .push (.inr _) _ => inferInstanceAs (Decidable (s.stopper = .outside))
  | .run _ | .push (.inl _) _ | .wakeUp _ | .waitFails _ | .join => .isTrue trivial

end Decidable

variable [DecidableEq P] [Fintype P] {k : LoopKind F} {s s' : Workers F size P V}
  {l : WorkersLabel F size P V}

omit [DecidableEq P] [Fintype P] in
theorem committed_of_mayBlock {w : Fin size} (h : s.MayBlock k w = true) :
    s.Committed k (.inl w) = true := by
  rw [MayBlock, Bool.or_eq_true] at h
  rw [Committed, Bool.or_eq_true]
  exact h.imp_right Pc.takes_of_mayBlock

/-! ## What a step does to them -/

/-- A worker that leaves its place in the loop, and has not just tested the variable, is no longer
committed. -/
theorem Supplied.goTo (hs : s.Supplied k) {w : Fin size} {p : WorkerPc V}
    (hidle : s.queue.pc (.inl w) = .idle) (hp : p ≠ .tested) : (s.goTo w p).Supplied k := by
  have hpc : p.isTested = false := by
    cases p <;> first | rfl | exact absurd rfl hp
  have hself : (s.goTo w p).Committed k (.inl w) = false ∧ (s.goTo w p).MayBlock k w = false := by
    have hqueue : (s.goTo w p).queue.pc (.inl w) = .idle := hidle
    rw [Committed, MayBlock, goTo_loop_self, hpc, hqueue]
    exact ⟨rfl, rfl⟩
  have hother : ∀ t, t ≠ .inl w → (s.goTo w p).Committed k t = s.Committed k t := by
    rintro (w' | p') ht
    · rw [Committed, Committed, goTo_loop_of_ne s fun heq => ht (congrArg Sum.inl heq)]
      rfl
    · rfl
  refine ⟨hs.woken, hs.enough.imp (fun hblock w' => ?_) fun hle => ?_⟩
  · by_cases hw' : w' = w
    · rw [hw', hself.2]
    · rw [← hblock w', MayBlock, MayBlock, goTo_loop_of_ne s hw']
      rfl
  · have hsum := sum_add_of_ne (f := fun t => (s.Committed k t).toNat)
      (g := fun t => ((s.goTo w p).Committed k t).toNat) (a := .inl w)
      fun t ht => by rw [hother t ht]
    rw [hself.1, Bool.toNat_false] at hsum
    have hdemand : (s.goTo w p).demand k ≤ s.demand k := by
      rw [demand, demand]
      omega
    exact hdemand.trans hle

omit [Fintype P] in
/-- The threads that do not take the step of the queue keep their places, or are woken. -/
theorem Moves.other {ql : TaskQueue.Label (Fin size ⊕ P) V} (hmoves : Moves l s s' ql)
    {t : Fin size ⊕ P} (ht : t ≠ ql.thread) :
    s'.Committed k t = s.Committed k t ∧ (s'.queue.pc t).brings = (s.queue.pc t).brings ∧
      (∀ w, t = .inl w → s'.MayBlock k w = s.MayBlock k w) ∧
      (s'.queue.pc t).inPush = (s.queue.pc t).inPush := by
  have hpc : (s'.queue.pc t).takes = (s.queue.pc t).takes ∧
      (s'.queue.pc t).brings = (s.queue.pc t).brings ∧
      (s'.queue.pc t).mayBlock = (s.queue.pc t).mayBlock ∧
      (s'.queue.pc t).inPush = (s.queue.pc t).inPush := by
    rcases pc_of_next hmoves.next_eq ht with hsame | ⟨-, hwaiting, hwoken⟩
    · rw [hsame]
      exact ⟨rfl, rfl, rfl, rfl⟩
    · rw [hwaiting, hwoken]
      exact ⟨rfl, rfl, rfl, rfl⟩
  refine ⟨?_, hpc.2.1, ?_, hpc.2.2.2⟩
  · rcases t with w | p
    · rw [Committed, Committed, hmoves.loop_eq w ht, hpc.1]
    · rfl
  · rintro w rfl
    rw [MayBlock, MayBlock, hmoves.loop_eq w ht, hpc.2.2.1]

/-- Between two states, a thread does not ask for more than it brings, does not come to block, and
leaves `Push` with its broadcast only. -/
structure Balanced (k : LoopKind F) (s s' : Workers F size P V) (t : Fin size ⊕ P) : Prop where
  demand : (s'.Committed k t).toNat + s.queue.queue.length + (s.queue.pc t).brings.toNat ≤
    (s.Committed k t).toNat + s'.queue.queue.length + (s'.queue.pc t).brings.toNat
  mayBlock : ∀ w, t = .inl w → s'.MayBlock k w = true → s.MayBlock k w = true
  inPush : (s.queue.pc t).inPush → (s'.queue.pc t).inPush ∨ s.queue.pc t = .broadcast

omit [Fintype P] in
/-- A worker that calls `Get` was committed before. -/
theorem Moves.balance_of_get {w : Fin size} (h : Invariant s)
    (hmoves : Moves l s s' (.get (.inl w))) (hloop : s.loop w = .tested)
    (hserves : k.serves k.stopValue = true) :
    Balanced k s s' (.inl w) := by
  have hidle := h.outside w (by rw [hloop]; rfl)
  have hqueue : s'.queue = s.queue.goTo (.inl w) .getAcquire := by
    simpa [TaskQueue.next, hidle, eq_comm] using hmoves.next_eq
  have hbefore : s.Committed k (.inl w) = true ∧ s.MayBlock k w = true := by
    rw [Committed, MayBlock, hloop, hserves]
    exact ⟨rfl, rfl⟩
  refine ⟨?_, fun w' hw' _ => ?_, fun hpush => ?_⟩
  · rw [hqueue, hidle, hbefore.1, goTo_pc_self]
    have hle := Bool.toNat_le (s'.Committed k (.inl w))
    simp only [Pc.brings, Bool.toNat_false, Bool.toNat_true, TaskQueue.goTo]
    omega
  · rw [← Sum.inl.inj hw']
    exact hbefore.2
  · rw [hidle] at hpush
    cases hpush

omit [Fintype P] in
/-- The thread that takes a step of the queue does not ask for more than it brings. -/
theorem Moves.balance {ql : TaskQueue.Label (Fin size ⊕ P) V} (h : Invariant s)
    (hmoves : Moves l s s' ql) (hflag : s.flag = k.stopValue)
    (hget : ∀ t, ql = .get t → ∃ w, t = .inl w ∧ s.loop w = .tested ∧ k.serves s.flag = true) :
    Balanced k s s' ql.thread := by
  have htested : ∀ w, ql.thread = .inl w → (s'.loop w).isTested = false := by
    intro w hw
    have hne := hmoves.tested w hw.symm
    cases hloop : s'.loop w <;> first | rfl | exact absurd hloop hne
  have hnext := hmoves.next_eq
  by_cases hcall : ∃ t, ql = .get t
  · obtain ⟨t, rfl⟩ := hcall
    obtain ⟨w, rfl, hloop, hserves⟩ := hget t rfl
    rw [hflag] at hserves
    exact hmoves.balance_of_get h hloop hserves
  · push Not at hcall
    obtain ⟨hbalance, hblock, hpush⟩ := balance_of_next h.exclusive hnext hcall
    refine ⟨?_, fun w hw hmay => ?_, hpush⟩
    · -- what a thread takes is at most what it is committed to
      have hafter : (s'.Committed k ql.thread).toNat ≤ (s'.queue.pc ql.thread).takes.toNat := by
        cases hthread : ql.thread with
        | inl w => rw [Committed, htested w hthread, Bool.false_and, Bool.false_or]
        | inr p => exact Nat.zero_le _
      have hbefore : (s.queue.pc ql.thread).takes.toNat ≤ (s.Committed k ql.thread).toNat := by
        cases hthread : ql.thread with
        | inl w =>
          rw [Committed]
          cases (s.queue.pc (.inl w)).takes
          · exact Nat.zero_le _
          · rw [Bool.or_true]
        | inr p =>
          have hpushes := h.pusher p
          cases hpc : s.queue.pc (.inr p) <;> rw [hpc] at hpushes <;>
            first | exact le_rfl | cases hpushes
      omega
    · rw [MayBlock, htested w hw, Bool.false_and, Bool.false_or, ← hw] at hmay
      rw [MayBlock, ← hw, hblock hmay, Bool.or_true]

omit [DecidableEq P] in
/-- Where a supplied worker is about to block, a task is on its way. -/
theorem Supplied.exists_brings (h : Invariant s) (hs : s.Supplied k) {w : Fin size}
    (hpc : s.queue.pc (.inl w) = .condWait) : ∃ t, (s.queue.pc t).brings = true := by
  have hmay : s.MayBlock k w = true := by
    rw [MayBlock, hpc]
    exact Bool.or_true _
  have hle := hs.enough.resolve_left fun hnone => by simp [hnone w] at hmay
  -- the worker is one of the committed, and the queue that it has found is empty
  have hempty : s.queue.queue = [] := by
    have hknows := h.exclusive.knows (.inl w)
    rwa [hpc] at hknows
  have hone : (s.Committed k (.inl w)).toNat ≤ s.demand k :=
    Finset.single_le_sum (f := fun t => (s.Committed k t).toNat) (fun _ _ => Nat.zero_le _)
      (Finset.mem_univ _)
  rw [committed_of_mayBlock hmay, Bool.toNat_true] at hone
  have hsum : ∑ t, (s.queue.pc t).brings.toNat ≠ 0 := by
    have := hone.trans hle
    rw [supply, hempty, List.length_nil] at this
    omega
  obtain ⟨t, -, ht⟩ := Finset.exists_ne_zero_of_sum_ne_zero hsum
  refine ⟨t, ?_⟩
  cases hbrings : (s.queue.pc t).brings with
  | true => rfl
  | false =>
    rw [hbrings] at ht
    exact absurd rfl ht

/-- A step of the queue keeps the workers supplied. -/
theorem Supplied.of_moves {ql : TaskQueue.Label (Fin size ⊕ P) V} (h : Invariant s)
    (hs : s.Supplied k) (hmoves : Moves l s s' ql) (hflag : s.flag = k.stopValue)
    (hget : ∀ t, ql = .get t → ∃ w, t = .inl w ∧ s.loop w = .tested ∧ k.serves s.flag = true) :
    s'.Supplied k := by
  obtain ⟨hbalance, hblock, hpush⟩ := hmoves.balance h hflag hget
  constructor
  · rintro ⟨w, hwaiting⟩
    by_cases hw : .inl w = ql.thread
    · -- The last one that was awake blocks, and there is a task for it on its way.
      have hpc : s.queue.pc (.inl w) = .condWait := by
        rw [hw] at hwaiting ⊢
        exact condWait_of_waiting hmoves.next_eq hwaiting
      obtain ⟨t, hbrings⟩ := hs.exists_brings h hpc
      have hne : t ≠ ql.thread := by
        rintro rfl
        rw [← hw, hpc] at hbrings
        cases hbrings
      exact ⟨t, (hmoves.other (k := k) hne).2.2.2.trans (Pc.inPush_of_brings hbrings)⟩
    · -- Somebody who was blocked before still is, so that the one in `Push` is still there.
      have hbefore : s.queue.pc (.inl w) = .waiting := by
        rcases pc_of_next hmoves.next_eq hw with hsame | ⟨-, -, hwoken⟩
        · rwa [hsame] at hwaiting
        · rw [hwoken] at hwaiting
          cases hwaiting
      obtain ⟨t, ht⟩ := hs.woken ⟨w, hbefore⟩
      by_cases hne : t = ql.thread
      · subst hne
        refine ⟨_, (hpush ht).resolve_right ?_⟩
        exact ne_broadcast_of_waiting hmoves.next_eq hwaiting
      · exact ⟨t, (hmoves.other (k := k) hne).2.2.2.trans ht⟩
  · refine hs.enough.imp (fun hnone w => ?_) fun hle => ?_
    · by_cases hw : .inl w = ql.thread
      · refine Bool.eq_false_iff.mpr fun hmay => ?_
        have hmay' := hblock w hw.symm hmay
        rw [hnone w] at hmay'
        cases hmay'
      · rw [(hmoves.other hw).2.2.1 w rfl, hnone w]
    · have hdemand := sum_add_of_ne (f := fun t => (s.Committed k t).toNat)
        (g := fun t => (s'.Committed k t).toNat) (a := ql.thread)
        fun t ht => by rw [(hmoves.other ht).1]
      have hsupply := sum_add_of_ne (f := fun t => (s.queue.pc t).brings.toNat)
        (g := fun t => (s'.queue.pc t).brings.toNat) (a := ql.thread)
        fun t ht => by rw [(hmoves.other (k := k) ht).2.1]
      simp only [demand, supply] at hle ⊢
      omega

/-! ## After `Stop` -/

/-- After `Stop`, the variable has its value, and the workers are supplied. -/
def AfterStop (k : LoopKind F) (s : Workers F size P V) : Prop :=
  s.stopper ≠ .outside → s.flag = k.stopValue ∧ s.Supplied k

/-- After `Stop`, the workers stay supplied. -/
theorem AfterStop.next (h : Invariant s) (hs : s.AfterStop k) (hok : s.StopsSupplied k l)
    (hnext : s.next k l = some s') : s'.AfterStop k := by
  intro hstop
  rcases next_cases h hnext with ⟨w, p, rfl, rfl, -, hidle, htested⟩ | ⟨ql, hmoves, hget⟩ |
    ⟨rfl, -, rfl⟩ | ⟨hqueue, hloop, hstopper, hflag⟩
  · obtain ⟨hflag, hsupplied⟩ := hs hstop
    refine ⟨hflag, hsupplied.goTo hidle fun hp => ?_⟩
    -- nobody passes the test any more
    have hstays := htested hp
    rw [hflag, k.leaves_stopValue] at hstays
    cases hstays
  · rw [hmoves.stopper_eq] at hstop
    obtain ⟨hflag, hsupplied⟩ := hs hstop
    exact ⟨hmoves.flag_eq.trans hflag, hsupplied.of_moves h hmoves hflag hget⟩
  · have hsupplied : s.Supplied k := hok
    exact ⟨rfl, hsupplied.woken, hsupplied.enough⟩
  · rw [Ne, hstopper] at hstop
    obtain ⟨hbefore, hsupplied⟩ := hs hstop
    rcases hflag with hsame | ⟨value, rfl⟩
    · obtain ⟨flag, queue, loop, stopper⟩ := s'
      obtain rfl : queue = s.queue := hqueue
      obtain rfl : loop = s.loop := hloop
      exact ⟨hsame.trans hbefore, hsupplied.woken, hsupplied.enough⟩
    · exact absurd hok hstop

omit [DecidableEq P] in
/-- Supplied workers are not left to themselves. -/
theorem not_deserted_of_supplied (h : Invariant s) (hs : s.Supplied k) : ¬ s.Deserted := by
  rintro ⟨⟨w, hw⟩, hblocked, hidle⟩
  obtain ⟨t, ht⟩ := hs.woken ⟨w, hblocked w hw⟩
  rcases t with w' | p
  · by_cases hw' : s.loop w' = .exited
    · rw [h.outside w' (by rw [hw']; rfl)] at ht
      cases ht
    · rw [hblocked w' hw'] at ht
      cases ht
  · rw [hidle p] at ht
    cases ht

/-- While a supplied worker is left, a worker goes on, or another thread is in `Push`. -/
theorem exists_next_of_supplied (h : Invariant s) (hs : s.Supplied k)
    (hleft : ∃ w, s.loop w ≠ .exited) :
    (∃ w s', s.next k (.run (.inl w)) = some s') ∨ ∃ p, (s.queue.pc (.inr p)).inPush := by
  -- A worker outside of the queue goes on, and so does whoever is awake in it.
  by_cases hin : ∃ w, s.loop w ≠ .exited ∧ s.queue.pc (.inl w) = .idle
  · obtain ⟨w, hw, hidle⟩ := hin
    exact .inl ⟨w, exists_next_of_idle h hw hidle⟩
  by_cases hawake : ∃ t, s.queue.pc t ≠ .idle ∧ s.queue.pc t ≠ .waiting
  · obtain ⟨t, hidle, hwaiting⟩ := hawake
    obtain ⟨t', queue, hidle', hqueue⟩ := exists_run h.exclusive hidle hwaiting
    rcases t' with w | p
    · exact .inl ⟨w, exists_next_of_run h hidle' hqueue⟩
    · exact .inr ⟨p, Pc.inPush_of_pushes (h.pusher p) hidle'⟩
  -- Otherwise all of them are blocked, and somebody is in `Push`.
  push Not at hin hawake
  obtain ⟨w, hw⟩ := hleft
  obtain ⟨t, ht⟩ := hs.woken ⟨w, hawake _ (hin w hw)⟩
  have hidle : s.queue.pc t ≠ .idle := by
    intro hpc
    rw [hpc] at ht
    cases ht
  rw [hawake t hidle] at ht
  cases ht

/-- After `Stop`, no other thread is in `Push`. -/
def QuietAfterStop (s : Workers F size P V) : Prop :=
  s.stopper ≠ .outside → ∀ p, (s.queue.pc (.inr p)).inPush = false

omit [DecidableEq P] in
theorem stopsSupplied_of_endsWell (h : s.EndsWell k l) : s.StopsSupplied k l := by
  cases l
  case stop => exact h.1
  case write value => exact h
  all_goals exact trivial

/-- After `Stop`, no other thread comes into `Push`. -/
theorem QuietAfterStop.next (h : Invariant s) (hs : s.QuietAfterStop) (hok : s.EndsWell k l)
    (hnext : s.next k l = some s') : s'.QuietAfterStop := by
  intro hstop p
  rcases next_cases h hnext with ⟨w, p', -, rfl, -⟩ | ⟨ql, hmoves, -⟩ | ⟨rfl, -, rfl⟩ |
    ⟨hqueue, -, hstopper, -⟩
  · exact hs hstop p
  · rw [hmoves.stopper_eq] at hstop
    by_cases hp : .inr p = ql.thread
    · -- It was outside of `Push` before, and has no other way in than to call it.
      have hidle : s.queue.pc (.inr p) = .idle := by
        by_contra hne
        have hpush := Pc.inPush_of_pushes (h.pusher p) hne
        rw [hs hstop p] at hpush
        cases hpush
      have hthread := hmoves.thread_eq
      rw [← hp] at hthread
      cases l <;> simp only [WorkersLabel.thread?, reduceCtorEq, Option.some.injEq] at hthread <;>
        subst hthread
      case push value => exact absurd hok hstop
      all_goals simp [Workers.next, queueStep, TaskQueue.next, runStep, hidle] at hnext
    · rw [(hmoves.other (k := k) hp).2.2.2]
      exact hs hstop p
  · exact hok.2 p
  · rw [Ne, hstopper] at hstop
    rw [hqueue]
    exact hs hstop p

/-! ## Runs -/

variable [DecidableEq V]

/-- After a `Stop` that finds the workers supplied, they are. -/
theorem afterStop_of_reachable
    (h : ((workers k size P V).restrict (StopsSupplied k)).Reachable s) :
    Invariant s ∧ s.AfterStop k := by
  refine TransitionSystem.Reachable.invariant_restrict
    (P := fun s => Invariant s ∧ s.AfterStop k) ⟨invariant_init k, ?_⟩ ?_ h
  · intro hstop
    exact absurd rfl hstop
  · rintro s l s' ⟨hs, hafter⟩ hok hnext
    exact ⟨hs.next hnext, hafter.next hs hok hnext⟩

/-- Whoever pushes after a `Stop` that finds the workers supplied, they are never left to
themselves, and while one of them is left, a worker goes on, or another thread is in `Push`. -/
theorem not_deserted_of_stopsSupplied
    (h : ((workers k size P V).restrict (StopsSupplied k)).Reachable s)
    (hstop : s.stopper ≠ .outside) :
    ¬ s.Deserted ∧ ((∃ w, s.loop w ≠ .exited) →
      (∃ w s', s.next k (.run (.inl w)) = some s') ∨ ∃ p, (s.queue.pc (.inr p)).inPush) := by
  obtain ⟨hinv, hafter⟩ := afterStop_of_reachable h
  have hsupplied := (hafter hstop).2
  exact ⟨not_deserted_of_supplied hinv hsupplied, exists_next_of_supplied hinv hsupplied⟩

/-- The workers are stopped where `Stop` finds them supplied, nobody else is in `Push` then or calls
it afterwards, and nobody else writes the variable. -/
theorem shutsDown_of_endsWell
    (h : ((workers k size P V).restrict (EndsWell k)).Reachable s) : s.ShutsDown k := by
  have hsupplied : ((workers k size P V).restrict (StopsSupplied k)).Reachable s :=
    h.mono_restrict fun _ _ => stopsSupplied_of_endsWell
  have hquiet : Invariant s ∧ s.QuietAfterStop := by
    refine TransitionSystem.Reachable.invariant_restrict
      (P := fun s => Invariant s ∧ s.QuietAfterStop) ⟨invariant_init k, ?_⟩ ?_ h
    · intro hstop
      exact absurd rfl hstop
    · rintro s l s' ⟨hs, hquiet⟩ hok hnext
      exact ⟨hs.next hnext, hquiet.next hs hok hnext⟩
  constructor
  · intro hstop hleft
    obtain hworker | ⟨p, hp⟩ := (not_deserted_of_stopsSupplied hsupplied hstop).2 hleft
    · exact .inl hworker
    · rw [hquiet.2 hstop p] at hp
      cases hp
  · exact fun hstop => (not_deserted_of_stopsSupplied hsupplied hstop).1

end Workers

end MosqCluster
