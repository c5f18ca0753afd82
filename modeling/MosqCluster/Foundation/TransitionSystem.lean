import Mathlib.Data.Option.Basic

/-!
# Labelled transition systems

A system is an initial state and a partial function: a label names one step of one party together
with every choice its environment makes in that step, so that a state and a label determine the
next state. A step that is not enabled is `none`.

## Main definitions

* `Run` and `Reachable`: finitely many steps, from a given state and from the initial one;
* `exec`: the state that a list of labels leads to;
* `restrict`: the system that only takes the steps that meet a condition.

## Main results

* `Run.invariant` and `Reachable.invariant`: what every step preserves holds along every run;
* `exec_length_le`: where every step lowers a rank, runs are bounded.
-/

/-- A transition system whose labels fix every choice. -/
structure TransitionSystem (State Label : Type*) where
  /-- The initial state. -/
  init : State
  /-- The state a label leads to, or `none` where the step is not enabled. -/
  next : State → Label → Option State

namespace TransitionSystem

variable {State Label : Type*} (T : TransitionSystem State Label)

/-- Finitely many steps lead from `s` to the second state. -/
inductive Run (s : State) : State → Prop
  /-- No step. -/
  | refl : Run s s
  /-- One more step. -/
  | step {s₁ s₂ : State} (l : Label) : Run s s₁ → T.next s₁ l = some s₂ → Run s s₂

/-- Finitely many steps lead from the initial state to `s`. -/
def Reachable (s : State) : Prop := T.Run T.init s

/-- The state that the labels of a list lead to, one after another. -/
def exec (s : State) : List Label → Option State
  | [] => some s
  | l :: ls => (T.next s l).bind fun s => exec s ls

variable {T} {s s₁ s₂ : State}

/-- Runs compose. -/
theorem Run.trans (h₁ : T.Run s s₁) (h₂ : T.Run s₁ s₂) : T.Run s s₂ := by
  induction h₂ with
  | refl => exact h₁
  | step l _ hnext ih => exact ih.step l hnext

/-- What a list of labels leads to is the end of a run. -/
theorem run_of_exec {ls : List Label} (h : T.exec s ls = some s₁) : T.Run s s₁ := by
  induction ls generalizing s with
  | nil =>
    obtain rfl : s = s₁ := by simpa [exec] using h
    exact .refl
  | cons l ls ih =>
    obtain ⟨s', hnext, hexec⟩ := Option.bind_eq_some_iff.mp h
    exact Run.trans (.step l .refl hnext) (ih hexec)

/-- What a list of labels leads to from the initial state is reachable. -/
theorem reachable_of_exec {ls : List Label} (h : T.exec T.init ls = some s) : T.Reachable s :=
  run_of_exec h

/-- The end of a run from a reachable state is reachable. -/
theorem Reachable.run (h : T.Reachable s) (hrun : T.Run s s₁) : T.Reachable s₁ := h.trans hrun

/-- A step from a reachable state leads to a reachable state. -/
theorem Reachable.step (h : T.Reachable s) (l : Label) (hnext : T.next s l = some s₁) :
    T.Reachable s₁ :=
  Run.step l h hnext

/-- What every step preserves holds at the end of a run if it holds at its start. -/
theorem Run.invariant {P : State → Prop}
    (hstep : ∀ ⦃s l s'⦄, P s → T.next s l = some s' → P s') (hrun : T.Run s s₁) (hs : P s) :
    P s₁ := by
  induction hrun with
  | refl => exact hs
  | step l _ hnext ih => exact hstep ih hnext

/-- What holds initially and is preserved by every step holds in every reachable state. -/
theorem Reachable.invariant {P : State → Prop} (hinit : P T.init)
    (hstep : ∀ ⦃s l s'⦄, P s → T.next s l = some s' → P s') (h : T.Reachable s) : P s :=
  Run.invariant hstep h hinit

/-- Where every step lowers a rank, there are no more steps than the rank. -/
theorem exec_length_le {P : State → Prop} {rank : State → Nat}
    (hstep : ∀ ⦃s l s'⦄, P s → T.next s l = some s' → P s' ∧ rank s' < rank s) {ls : List Label}
    (hs : P s) (h : T.exec s ls = some s₁) : P s₁ ∧ rank s₁ + ls.length ≤ rank s := by
  induction ls generalizing s with
  | nil =>
    obtain rfl : s = s₁ := by simpa [exec] using h
    exact ⟨hs, Nat.le_refl _⟩
  | cons l ls ih =>
    obtain ⟨s', hnext, hexec⟩ := Option.bind_eq_some_iff.mp h
    obtain ⟨hs', hrank⟩ := hstep hs hnext
    obtain ⟨hs₁, hlength⟩ := ih hs' hexec
    rw [List.length_cons]
    exact ⟨hs₁, by omega⟩

/-! ## Restricting the steps -/

variable (T) in
/-- The system that takes only the steps that meet `ok`, a condition on the state before the step
and the label. -/
def restrict (ok : State → Label → Prop) [∀ s l, Decidable (ok s l)] :
    TransitionSystem State Label where
  init := T.init
  next s l := if ok s l then T.next s l else none

variable {ok : State → Label → Prop} [∀ s l, Decidable (ok s l)]

/-- A step of the restricted system is a step that meets the condition. -/
theorem restrict_next {l : Label} :
    (T.restrict ok).next s l = some s₁ ↔ ok s l ∧ T.next s l = some s₁ := by
  simp [restrict]

/-- What the restricted system reaches is reachable. -/
theorem Reachable.of_restrict (h : (T.restrict ok).Reachable s) : T.Reachable s :=
  Reachable.invariant (T := T.restrict ok) .refl
    (fun _ l _ hs hnext => hs.step l (restrict_next.mp hnext).2) h

/-- What is reached under a condition is reached under a weaker one. -/
theorem Reachable.mono_restrict {ok' : State → Label → Prop} [∀ s l, Decidable (ok' s l)]
    (himp : ∀ s l, ok s l → ok' s l) (h : (T.restrict ok).Reachable s) :
    (T.restrict ok').Reachable s :=
  Reachable.invariant (T := T.restrict ok) (P := (T.restrict ok').Reachable) .refl
    (fun s l _ hs hnext => hs.step l
      (restrict_next.mpr ⟨himp s l (restrict_next.mp hnext).1, (restrict_next.mp hnext).2⟩)) h

/-- What holds initially and is preserved by every step that meets `ok` holds in every reachable
state of the restricted system. -/
theorem Reachable.invariant_restrict {P : State → Prop} (hinit : P T.init)
    (hstep : ∀ ⦃s l s'⦄, P s → ok s l → T.next s l = some s' → P s')
    (h : (T.restrict ok).Reachable s) : P s :=
  Reachable.invariant (T := T.restrict ok) hinit
    (fun _ _ _ hP hnext => hstep hP (restrict_next.mp hnext).1 (restrict_next.mp hnext).2) h

end TransitionSystem
