import Mathlib.Data.List.TakeWhile
import Mathlib.Data.Seq.Computation

/-!
# Executions

An execution goes on for ever, leaves what the language defines, or returns a result. It is a
`Computation`, whose result is `none` where the execution faults. A loop is given by one turn, a
function of its state.

## Main definitions

* `Execution`, with `Execution.pure`, `Execution.bind` and `Execution.loop`;
* `Execution.Returns`, `Execution.Faults` and `Execution.Diverges`.

## Main results

* `Execution.returns_bind`: what a composite execution returns;
* `Execution.exists_returns_of_variant`: a loop whose turns make a measure smaller ends;
* `Execution.diverges_of_invariant`: a loop that goes on in every state of a set never ends;
* `Execution.returns_loop_of_scan`: what a loop returns that scans a list.
-/

/-- What one turn of a loop comes to. -/
inductive Turn (σ ρ : Type*) where
  /-- The loop goes on in a state. -/
  | next (state : σ)
  /-- The turn leaves what the language defines. -/
  | fault
  | done (result : ρ)

/-- An execution with results of a type. -/
def Execution (ρ : Type*) := Computation (Option ρ)

namespace Execution

variable {ρ ρ' σ : Type*}

/-- The execution returns a result. -/
def Returns (c : Execution ρ) (result : ρ) : Prop := Computation.Mem c (some result)

/-- The execution leaves what the language defines. -/
def Faults (c : Execution ρ) : Prop := Computation.Mem c none

/-- The execution goes on for ever. -/
def Diverges (c : Execution ρ) : Prop := ¬ Computation.Terminates c

/-- The execution that returns at once. -/
def pure (r : ρ) : Execution ρ := Computation.pure (some r)

/-- The execution that faults at once. -/
def fault : Execution ρ := Computation.pure none

/-- One execution after another. -/
def bind (c : Execution ρ) (next : ρ → Execution ρ') : Execution ρ' :=
  Computation.bind c fun result => result.elim fault next

variable {c : Execution ρ} {r r' : ρ}

/-- An execution returns one result only. -/
theorem Returns.unique (h : c.Returns r) (h' : c.Returns r') : r = r' :=
  Option.some.inj (Computation.mem_unique h h')

/-- What faults does not return. -/
theorem Faults.not_returns (h : c.Faults) : ¬ c.Returns r :=
  fun h' => Option.some_ne_none r (Computation.mem_unique h' h)

/-- What goes on for ever does not return. -/
theorem Diverges.not_returns (h : c.Diverges) : ¬ c.Returns r :=
  fun h' => h (Computation.terminates_of_mem h')

@[simp]
theorem returns_pure : (pure r).Returns r' ↔ r' = r :=
  (Computation.mem_pure_iff ..).trans Option.some_inj

/-- A composite execution returns what the second one returns for the result of the first. -/
theorem returns_bind {next : ρ → Execution ρ'} {r' : ρ'} :
    (c.bind next).Returns r' ↔ ∃ r, c.Returns r ∧ (next r).Returns r' := by
  constructor
  · intro h
    obtain ⟨result, hc, hnext⟩ := Computation.exists_of_mem_bind h
    cases result with
    | none =>
      -- the first execution faults, and so does the whole
      exact absurd (Computation.eq_of_pure_mem hnext) (Option.some_ne_none r')
    | some r => exact ⟨r, hc, hnext⟩
  · rintro ⟨r, hc, hnext⟩
    exact Computation.mem_bind hc hnext

theorem Returns.bind {next : ρ → Execution ρ'} {r' : ρ'} (h : c.Returns r) :
    (c.bind next).Returns r' ↔ (next r).Returns r' := by
  rw [returns_bind]
  constructor
  · rintro ⟨a, ha, hnext⟩
    rwa [h.unique ha]
  · intro hnext
    exact ⟨r, h, hnext⟩

/-! ## Loops -/

/-- What a turn gives: a result, or a state. -/
def toSum : Turn σ ρ → Option ρ ⊕ σ
  | .next s => .inr s
  | .fault => .inl none
  | .done r => .inl (some r)

/-- A loop from a state. -/
def loop (turn : σ → Turn σ ρ) (s : σ) : Execution ρ :=
  Computation.corec (fun s => toSum (turn s)) s

section Loop

variable {turn : σ → Turn σ ρ} {s s' : σ}

theorem loop_of_next (h : turn s = .next s') :
    loop turn s = Computation.think (loop turn s') := by
  apply Computation.destruct_eq_think
  rw [loop, Computation.corec_eq, h]
  rfl

theorem loop_of_done (h : turn s = .done r) : loop turn s = pure r := by
  apply Computation.destruct_eq_pure
  rw [loop, Computation.corec_eq, h]
  rfl

theorem loop_of_fault (h : turn s = .fault) : loop turn s = fault := by
  apply Computation.destruct_eq_pure
  rw [loop, Computation.corec_eq, h]
  rfl

/-- A turn that goes on changes nothing about the result. -/
theorem returns_loop_of_next (h : turn s = .next s') :
    (loop turn s).Returns r ↔ (loop turn s').Returns r := by
  rw [loop_of_next h]
  exact ⟨Computation.of_think_mem, Computation.think_mem⟩

/-- A turn that ends the loop. -/
theorem returns_loop_of_done (h : turn s = .done r) : (loop turn s).Returns r := by
  rw [loop_of_done h]
  exact returns_pure.mpr rfl

/-- A turn that faults. -/
theorem faults_loop_of_fault (h : turn s = .fault) : (loop turn s).Faults := by
  rw [loop_of_fault h]
  exact Computation.ret_mem none

theorem faults_loop_of_next (h : turn s = .next s') (hs : (loop turn s').Faults) :
    (loop turn s).Faults := by
  rw [loop_of_next h]
  exact Computation.think_mem hs

/-- Where every turn either ends the loop or makes a measure smaller, the loop ends. -/
theorem exists_returns_of_variant {I : σ → Prop} (measure : σ → Nat)
    (hturn : ∀ s, I s → (∃ r, turn s = .done r) ∨
      ∃ s', turn s = .next s' ∧ I s' ∧ measure s' < measure s)
    (hs : I s) : ∃ r, (loop turn s).Returns r := by
  induction hm : measure s using Nat.strongRecOn generalizing s with
  | _ m ih =>
    obtain ⟨r, hdone⟩ | ⟨s', hnext, hs', hlt⟩ := hturn s hs
    · exact ⟨r, returns_loop_of_done hdone⟩
    · obtain ⟨r, hret⟩ := ih (measure s') (hm ▸ hlt) hs' rfl
      exact ⟨r, (returns_loop_of_next hnext).mpr hret⟩

/-- Where the loop goes on in every state of a set and stays in it, it goes on for ever. -/
theorem diverges_of_invariant {I : σ → Prop}
    (hturn : ∀ s, I s → ∃ s', turn s = .next s' ∧ I s') (hs : I s) : (loop turn s).Diverges := by
  rintro ⟨result, n, hn⟩
  -- The result would have been there a turn earlier, in the next state.
  induction n generalizing s with
  | zero =>
    obtain ⟨s', hnext, -⟩ := hturn s hs
    rw [loop_of_next hnext] at hn
    cases hn
  | succ n ih =>
    obtain ⟨s', hnext, hs'⟩ := hturn s hs
    rw [loop_of_next hnext] at hn
    exact ih hs' hn

/-- A loop that scans a list while a condition holds. Its state is given by what has been scanned
and by the rest, and so is its result. -/
theorem returns_loop_of_scan {α : Type*} {p : α → Bool} {l : List α}
    (state : List α → List α → σ) (result : List α → List α → ρ)
    (hnext : ∀ done b rest, l = done ++ b :: rest → p b = true →
      turn (state done (b :: rest)) = .next (state (done ++ [b]) rest))
    (hstop : ∀ done b rest, l = done ++ b :: rest → p b = false →
      turn (state done (b :: rest)) = .done (result done (b :: rest)))
    (hend : (∀ b ∈ l, p b = true) → turn (state l []) = .done (result l [])) :
    (loop turn (state [] l)).Returns (result (l.takeWhile p) (l.dropWhile p)) := by
  suffices h : ∀ rest done, l = done ++ rest → (∀ b ∈ done, p b = true) →
      (loop turn (state done rest)).Returns
        (result (done ++ rest.takeWhile p) (rest.dropWhile p)) from
    h l [] rfl fun b hb => absurd hb List.not_mem_nil
  intro rest
  induction rest with
  | nil =>
    intro done hl hdone
    simp only [List.append_nil] at hl
    subst hl
    rw [List.takeWhile_nil, List.dropWhile_nil, List.append_nil]
    exact returns_loop_of_done (hend hdone)
  | cons b rest ih =>
    intro done hl hdone
    cases hb : p b with
    | false =>
      rw [List.takeWhile_cons_of_neg (by simp [hb]), List.dropWhile_cons_of_neg (by simp [hb]),
        List.append_nil]
      exact returns_loop_of_done (hstop done b rest hl hb)
    | true =>
      rw [returns_loop_of_next (hnext done b rest hl hb), List.takeWhile_cons_of_pos hb,
        List.dropWhile_cons_of_pos hb]
      have hdone' : ∀ x ∈ done ++ [b], p x = true := by
        simpa [or_imp, forall_and, hb] using hdone
      simpa using ih (done ++ [b]) (by simp [hl]) hdone'

end Loop

end Execution
