import Mathlib.Data.List.Infix
import Mathlib.Logic.Function.Basic
import MosqCluster.Foundation.TransitionSystem
import MosqCluster.Helper.XString

/-!
# Sending a response

`SendResponse` of `server/http_server.cpp` and the chain of tasks that sends one response:
`HttpTask::Run` sends it, and a `NextTask` what `SendResponse` says is left. A task runs on any
worker thread. What other tasks on these threads do is that they leave some `errno` behind. The
socket is left out, and the length of an `mstr` is an `int`, so that the conversions keep it.

## Main definitions

* `sendResponse` and `SendChain`: the function, and the chain of tasks for one response;
* `SendChain.Transmitted`: the socket has accepted a prefix of the response, and nothing is sent
  once it has accepted the whole;
* `SendChain.stale`: steps in which an old `errno` is taken for the outcome of a complete `send`.

## Main results

* `transmitted_of_reachable`: responses are transmitted in all runs without such a step.
-/

namespace MosqCluster.Server

/-- `EAGAIN` and `EWOULDBLOCK`, which are the same. -/
def EAGAIN : Int := 11

/-- What `send` does. -/
inductive SendOutcome
  /-- It accepts that many bytes. -/
  | accepts (n : Nat)
  /-- It fails with an `errno`. -/
  | fails (errno : Int)

/-- What `send` returns. -/
def SendOutcome.len : SendOutcome → Int
  | .accepts n => n
  | .fails _ => -1

/-- The `errno` of the thread after `send`, which a success leaves as it was. -/
def SendOutcome.errno (before : Int) : SendOutcome → Int
  | .accepts _ => before
  | .fails errno => errno

/-- The bytes of the buffer that are accepted. -/
def SendOutcome.accepted (buffer : Bytes) : SendOutcome → Bytes
  | .accepts n => buffer.take n
  | .fails _ => []

theorem SendOutcome.accepted_isPrefix (buffer : Bytes) (outcome : SendOutcome) :
    outcome.accepted buffer <+: buffer := by
  cases outcome with
  | accepts n => exact List.take_prefix n buffer
  | fails errno => exact List.nil_prefix

/-- `send` accepts no more than there is, and nothing only if there is nothing. -/
def SendOutcome.Possible (buffer : Bytes) : SendOutcome → Prop
  | .accepts n => n ≤ buffer.length ∧ (n = 0 → buffer = [])
  | .fails _ => True

instance (buffer : Bytes) (outcome : SendOutcome) : Decidable (outcome.Possible buffer) := by
  cases outcome <;> unfold SendOutcome.Possible <;> infer_instance

/-- `NextTask`. -/
structure NextTask where
  content : Bytes
  expiresIn : Int

/-- `expires_in` of `SendResponse`, for the task `pre`. -/
def expiresIn (now : Int) (pre : Option NextTask) : Int :=
  match pre with
  | none => now + 15
  | some pre => pre.expiresIn

/-- `SendResponse` after its test of the time: what it returns. -/
def sendResponse (buffer : Bytes) (expires : Int) (errno : Int) (outcome : SendOutcome) :
    Option NextTask :=
  -- a part of the buffer has been accepted
  if 0 < outcome.len ∧ outcome.len < buffer.length then
    some ⟨buffer.drop outcome.len.toNat, expires⟩
  -- reached with all of it accepted as well, with the `errno` of an earlier call
  else if outcome.errno errno = EAGAIN then some ⟨buffer, expires⟩
  else none

/-! ## The chain of tasks -/

/-- Which task sends the response next. -/
inductive ChainTask
  /-- The `HttpTask`. -/
  | http
  /-- A `NextTask`. -/
  | next (task : NextTask)
  /-- No task: the socket is closed. -/
  | closed

/-- The response `m`, on its way. -/
structure SendChain where
  task : ChainTask
  /-- The `errno` of each worker thread. -/
  errno : Nat → Int
  /-- History: the bytes that each call of `send` has accepted. -/
  sends : List Bytes

/-- A step of a worker thread. -/
inductive ChainLabel
  /-- The thread runs the task of the chain. -/
  | run (thread : Nat) (now : Int) (outcome : SendOutcome)
  /-- The thread runs something else, which leaves an `errno`. -/
  | other (thread : Nat) (errno : Int)

namespace SendChain

/-- The buffer of a task and the task itself, where it is a `NextTask`. -/
def buffer (m : Bytes) : ChainTask → Option (Bytes × Option NextTask)
  | .http => some (m, none)
  | .next task => some (task.content, some task)
  | .closed => none

/-- `Run` of a task: `SendResponse`, and then the next task or `close`. -/
def run (s : SendChain) (thread : Nat) (now : Int) (outcome : SendOutcome) (buffer : Bytes)
    (pre : Option NextTask) : Option SendChain :=
  -- the time is over: the socket is closed
  if now > expiresIn now pre then some { s with task := .closed }
  else if outcome.Possible buffer then
    let errno := s.errno thread
    some
      { task := match sendResponse buffer (expiresIn now pre) errno outcome with
          | some task => .next task
          | none => .closed
        errno := Function.update s.errno thread (outcome.errno errno)
        sends := s.sends ++ [outcome.accepted buffer] }
  else none

/-- One step. -/
def next (m : Bytes) (s : SendChain) : ChainLabel → Option SendChain
  | .run thread now outcome =>
    (buffer m s.task).bind fun (buffer, pre) => s.run thread now outcome buffer pre
  | .other thread errno => some { s with errno := Function.update s.errno thread errno }

/-- The bytes that the socket has accepted are a prefix of the response, and no `send` follows one
with which all of it has been accepted. -/
structure Transmitted (m : Bytes) (s : SendChain) : Prop where
  isPrefix : s.sends.flatten <+: m
  last : ∀ earlier bytes later, s.sends = earlier ++ bytes :: later → bytes ≠ [] →
    (earlier ++ [bytes]).flatten = m → later = []

/-- In this step, `send` accepts all bytes that are left, and the `errno` of the thread is
`EAGAIN`. -/
def stale (m : Bytes) (s : SendChain) : ChainLabel → Bool
  | .run thread now (.accepts n) =>
    (buffer m s.task).any fun (buffer, pre) =>
      decide (now ≤ expiresIn now pre ∧ 0 < n ∧ n = buffer.length ∧ s.errno thread = EAGAIN)
  | _ => false

end SendChain

/-- The tasks that send the response `m`, on threads that run other tasks as well. -/
def sendChain (m : Bytes) : TransitionSystem SendChain ChainLabel where
  init := ⟨.http, fun _ => 0, []⟩
  next := SendChain.next m

namespace SendChain

variable {m : Bytes} {s s' : SendChain} {l : ChainLabel}

/-! ## What a step does -/

/-- A step gives up, sends, or is that of another task. -/
theorem next_cases (hnext : s.next m l = some s') :
    (∃ thread now outcome b pre, l = .run thread now outcome ∧ buffer m s.task = some (b, pre) ∧
      expiresIn now pre < now ∧ s' = { s with task := .closed }) ∨
    (∃ thread now outcome b pre, l = .run thread now outcome ∧ buffer m s.task = some (b, pre) ∧
      now ≤ expiresIn now pre ∧ outcome.Possible b ∧
      s'.sends = s.sends ++ [outcome.accepted b] ∧
      buffer m s'.task =
        (sendResponse b (expiresIn now pre) (s.errno thread) outcome).map fun task =>
          (task.content, some task)) ∨
    ∃ thread errno, l = .other thread errno ∧ s'.task = s.task ∧ s'.sends = s.sends := by
  cases l with
  | other thread errno =>
    -- the thread is busy with something else
    cases hnext
    exact .inr (.inr ⟨thread, errno, rfl, rfl, rfl⟩)
  | run thread now outcome =>
    obtain ⟨⟨b, pre⟩, hbuffer, hrun⟩ := Option.bind_eq_some_iff.mp hnext
    simp only [run] at hrun
    -- `SendResponse` looks at the time first
    split at hrun
    · exact .inl ⟨thread, now, outcome, b, pre, rfl, hbuffer, ‹_›, (Option.some.inj hrun).symm⟩
    · obtain ⟨hpossible, hrun⟩ := Option.ite_none_right_eq_some.mp hrun
      obtain rfl := Option.some.inj hrun
      refine .inr (.inl ⟨thread, now, outcome, b, pre, rfl, hbuffer, by omega, hpossible, rfl, ?_⟩)
      dsimp only
      split
      · next task htask => rw [htask]; rfl
      · next htask => rw [htask]; rfl

/-- The bytes that are accepted and those that the next task sends are the bytes of the buffer,
unless a stale `errno` decides. -/
theorem accepted_append {b : Bytes} {expires errno : Int} {outcome : SendOutcome} {task : NextTask}
    (hpossible : outcome.Possible b)
    (hstale : ∀ n, outcome = .accepts n → 0 < n → n = b.length → errno ≠ EAGAIN)
    (htask : sendResponse b expires errno outcome = some task) :
    outcome.accepted b ++ task.content = b ∧ (b ≠ [] → task.content ≠ []) := by
  unfold sendResponse at htask
  cases outcome with
  | fails e =>
    -- a `send` that fails leaves the whole buffer
    have hlen : ¬ (0 < (SendOutcome.fails e).len ∧ (SendOutcome.fails e).len < b.length) := by
      simp [SendOutcome.len]
    rw [if_neg hlen] at htask
    obtain ⟨-, htask⟩ := Option.ite_none_right_eq_some.mp htask
    obtain rfl := Option.some.inj htask
    exact ⟨rfl, id⟩
  | accepts n =>
    obtain ⟨hle, hzero⟩ := hpossible
    split at htask
    · next hlen =>
      obtain rfl := Option.some.inj htask
      -- a part has been accepted, and the rest is not empty
      have hlt : n < b.length := by
        have : (n : Int) < b.length := hlen.2
        omega
      refine ⟨List.take_append_drop n b, fun _ hnil => ?_⟩
      have := List.drop_eq_nil_iff.mp hnil
      simp [SendOutcome.len] at this
      omega
    · next hlen =>
      obtain ⟨herrno, htask⟩ := Option.ite_none_right_eq_some.mp htask
      obtain rfl := Option.some.inj htask
      -- all of a buffer that is not empty would have been accepted
      rcases Nat.eq_zero_or_pos n with rfl | hpos
      · exact ⟨rfl, id⟩
      · refine absurd herrno (hstale n rfl hpos ?_)
        simp only [SendOutcome.len] at hlen
        omega

/-! ## Runs without a stale `errno` -/

/-- What the socket has accepted, and what the next task sends, make up the response. -/
structure OnItsWay (m : Bytes) (s : SendChain) : Prop where
  transmitted : s.Transmitted m
  rest : ∀ b pre, buffer m s.task = some (b, pre) → s.sends.flatten ++ b = m ∧ (m ≠ [] → b ≠ [])

/-- One more `send`, while something was left. -/
theorem last_append {sends : List Bytes} {b new : Bytes} (hrest : sends.flatten ++ b = m)
    (hb : m ≠ [] → b ≠ []) {earlier : List Bytes} {bytes : Bytes} {later : List Bytes}
    (hsends : sends ++ [new] = earlier ++ bytes :: later) (hbytes : bytes ≠ [])
    (hall : (earlier ++ [bytes]).flatten = m) : later = [] := by
  rcases later.eq_nil_or_concat with rfl | ⟨later, x, rfl⟩
  · rfl
  · -- the response had been accepted before, so that nothing was left
    have hinit : sends = earlier ++ bytes :: later := by
      have : sends ++ [new] = (earlier ++ bytes :: later) ++ [x] := by simpa using hsends
      exact (List.append_inj' this rfl).1
    have hflatten : sends.flatten = m ++ later.flatten := by
      rw [hinit, ← hall]
      simp
    have hlength := congrArg List.length hrest
    rw [hflatten] at hlength
    simp only [List.length_append] at hlength
    have hm : m ≠ [] := by
      rintro rfl
      simp [hbytes] at hall
    have := List.length_pos_iff.mpr (hb hm)
    omega

/-- A step that is not stale keeps the response on its way. -/
theorem OnItsWay.step (hs : s.OnItsWay m) (hstale : s.stale m l = false)
    (hnext : s.next m l = some s') : s'.OnItsWay m := by
  rcases next_cases hnext with ⟨thread, now, outcome, b, pre, -, -, -, rfl⟩ |
    ⟨thread, now, outcome, b, pre, rfl, hbuffer, hnow, hpossible, hsends, htask⟩ |
    ⟨thread, errno, -, htask, hsends⟩
  · -- the chain ends here
    exact ⟨⟨hs.transmitted.isPrefix, hs.transmitted.last⟩, fun _ _ hb => by cases hb⟩
  · obtain ⟨hrest, hne⟩ := hs.rest b pre hbuffer
    -- the `errno` does not decide where everything has been accepted
    have hfresh : ∀ n, outcome = .accepts n → 0 < n → n = b.length → s.errno thread ≠ EAGAIN := by
      rintro n rfl hpos hall herrno
      have : s.stale m (.run thread now (.accepts n)) = true := by
        simp [stale, hbuffer, hnow, ← hall, hpos, herrno]
      rw [hstale] at this
      cases this
    refine ⟨⟨?_, fun earlier bytes later heq => ?_⟩, fun b' pre' hb' => ?_⟩
    · rw [hsends, List.flatten_append, List.flatten_singleton, ← hrest]
      exact (List.prefix_append_right_inj _).mpr (outcome.accepted_isPrefix b)
    · rw [hsends] at heq
      -- something was left before this `send`
      exact last_append hrest hne heq
    · rw [htask] at hb'
      -- the next task has what is left
      obtain ⟨task, hsome, heq⟩ := Option.map_eq_some_iff.mp hb'
      obtain ⟨rfl, -⟩ := Prod.mk.inj heq
      obtain ⟨happend, hne'⟩ := accepted_append hpossible hfresh hsome
      refine ⟨?_, fun hm => hne' (hne hm)⟩
      rw [hsends, List.flatten_append, List.flatten_singleton, List.append_assoc, happend, hrest]
  · refine ⟨⟨?_, ?_⟩, ?_⟩
    · rw [hsends]
      exact hs.transmitted.isPrefix
    · rw [hsends]
      exact hs.transmitted.last
    · rw [htask, hsends]
      exact hs.rest

/-! ## The step after a stale one -/

/-- The calls of `send` are only added to. -/
theorem sends_isPrefix_of_run (hrun : (sendChain m).Run s s') : s.sends <+: s'.sends := by
  refine hrun.invariant (P := fun s' => s.sends <+: s'.sends) (fun s₁ l s₂ hprefix hnext => ?_)
    List.prefix_rfl
  -- only a `send` adds to them
  rcases next_cases hnext with ⟨_, _, _, _, _, -, -, -, rfl⟩ |
    ⟨_, _, _, _, _, -, -, -, -, hsends, -⟩ | ⟨_, _, -, -, hsends⟩
  · exact hprefix
  · rw [hsends]
    exact hprefix.trans (List.prefix_append ..)
  · rw [hsends]
    exact hprefix

/-- After a stale step there is another task, and its `send` is one too many. -/
theorem OnItsWay.not_transmitted_of_stale (hs : s.OnItsWay m) (hstale : s.stale m l = true)
    (hnext : s.next m l = some s') :
    (buffer m s'.task).isSome ∧
      ∀ s'', (sendChain m).Run s' s'' → s''.sends ≠ s'.sends → ¬ s''.Transmitted m := by
  unfold stale at hstale
  split at hstale
  · next thread now n =>
    obtain ⟨⟨b, pre⟩, hbuffer, hok⟩ := (Option.any_eq_true ..).mp hstale
    obtain ⟨hnow, hpos, rfl, herrno⟩ := of_decide_eq_true hok
    rcases next_cases hnext with ⟨_, _, _, _, _, hl, hbuffer', hlate, -⟩ |
      ⟨_, _, _, b', pre', hl, hbuffer', -, -, hsends, htask⟩ | ⟨_, _, hl, -⟩
    · cases hl
      rw [hbuffer] at hbuffer'
      cases hbuffer'
      omega
    · cases hl
      rw [hbuffer] at hbuffer'
      cases hbuffer'
      refine ⟨?_, fun s'' hrun hmore htransmitted => ?_⟩
      · -- the stale `errno` makes a task of a buffer that has been sent
        simp [htask, sendResponse, SendOutcome.len, SendOutcome.errno, herrno]
      · -- a further `send` follows one with which the whole response has been accepted
        obtain ⟨later, hlater⟩ := sends_isPrefix_of_run hrun
        rw [hsends, SendOutcome.accepted, List.take_length, List.append_assoc] at hlater
        have hall : (s.sends ++ [b]).flatten = m := by
          rw [List.flatten_append, List.flatten_singleton]
          exact (hs.rest b pre hbuffer).1
        have hnil := htransmitted.last s.sends b later hlater.symm
          (List.length_pos_iff.mp hpos) hall
        apply hmore
        rw [← hlater, hsends, hnil, SendOutcome.accepted, List.take_length]
        rfl
    · cases hl
  · cases hstale

end SendChain

/-- As long as no step is stale, the socket accepts a prefix of the response, and nothing is sent
once it has accepted the whole. After the first stale step a task is left, and its `send` is one too
many. -/
theorem transmitted_of_reachable {m : Bytes} {s : SendChain}
    (hs : ((sendChain m).restrict fun s l => s.stale m l = false).Reachable s) :
    s.Transmitted m ∧ ∀ l s', s.stale m l = true → (sendChain m).next s l = some s' →
      (SendChain.buffer m s'.task).isSome ∧
        ∀ s'', (sendChain m).Run s' s'' → s''.sends ≠ s'.sends → ¬ s''.Transmitted m := by
  have honItsWay : s.OnItsWay m := by
    refine hs.invariant_restrict (P := SendChain.OnItsWay m) ?_
      fun s l s' hs hstale hnext => hs.step hstale hnext
    refine ⟨⟨List.nil_prefix, fun earlier bytes later heq => ?_⟩, fun b pre hb => ?_⟩
    · simp [sendChain] at heq
    · cases hb
      exact ⟨rfl, id⟩
  exact ⟨honItsWay.transmitted, fun l s' hstale hnext =>
    honItsWay.not_transmitted_of_stale hstale hnext⟩

/-- A response that is sent in two pieces, after an attempt that failed. -/
theorem transmitted_of_reachable_two_pieces :
    ∃ s, (sendChain (bytes "ok")).exec (sendChain (bytes "ok")).init
        [.run 0 100 (.fails EAGAIN), .run 0 101 (.accepts 1), .run 1 102 (.accepts 1)] = some s ∧
      s.sends = [[], bytes "o", bytes "k"] ∧ s.Transmitted (bytes "ok") := by
  obtain ⟨s, hexec, hsends, hok⟩ : ∃ s, (sendChain (bytes "ok")).exec (sendChain (bytes "ok")).init
      [.run 0 100 (.fails EAGAIN), .run 0 101 (.accepts 1), .run 1 102 (.accepts 1)] = some s ∧
        s.sends = [[], bytes "o", bytes "k"] ∧
        ((sendChain (bytes "ok")).restrict fun s l => s.stale (bytes "ok") l = false).exec
          (sendChain (bytes "ok")).init
          [.run 0 100 (.fails EAGAIN), .run 0 101 (.accepts 1), .run 1 102 (.accepts 1)] =
            some s := ⟨_, rfl, rfl, rfl⟩
  exact ⟨s, hexec, hsends, (transmitted_of_reachable (TransitionSystem.reachable_of_exec hok)).1⟩

/-- A thread whose last `send`, for another response, has failed, sends a whole response twice. -/
theorem not_transmitted : ¬ ∀ (m : Bytes) (s : SendChain), (sendChain m).Reachable s →
    s.Transmitted m := by
  intro htransmitted
  obtain ⟨s, hexec, hsends⟩ : ∃ s, (sendChain (bytes "ok")).exec (sendChain (bytes "ok")).init
      [.other 0 EAGAIN, .run 0 100 (.accepts 2), .run 0 100 (.accepts 2)] = some s ∧
        s.sends = [bytes "ok", bytes "ok"] := ⟨_, rfl, rfl⟩
  have hprefix := (htransmitted (bytes "ok") s (TransitionSystem.reachable_of_exec hexec)).isPrefix
  rw [hsends] at hprefix
  exact absurd hprefix.length_le (by decide)

end MosqCluster.Server
