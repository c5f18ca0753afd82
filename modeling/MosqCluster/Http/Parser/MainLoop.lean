import MosqCluster.Http.Parser.Marks

/-!
# Runs of the main loop

The loop of `http_parser_execute` goes from byte to byte, or further where a case of the switch has
read ahead. `Heads` lists the states in which it comes to the switch; what every iteration preserves
holds there, at the end of the buffer, and where the loop is left.

## Main definitions

* `Loop.advance`: the loop variables after an iteration;
* `Heads`: the states in which the loop comes to the switch.

## Main results

* `Heads.invariant`: what every iteration preserves holds wherever the loop comes to the switch;
* `heads_of_done` and `exists_heads_of_returned`: where the loop ends.
-/

namespace MosqCluster.Http

/-- The loop variables after an iteration that goes on `extra` bytes past the next one. -/
def Loop.advance (l : Loop) (ch : UInt8) (tail : List UInt8) (extra : Nat) : Loop :=
  { l.run (iteration l.parser ch tail) with p := l.p + extra + 1 }

/-- The loop that starts with `l` on `rest` comes to the switch with the given variables on the
given bytes, or to the end of the buffer. -/
inductive Heads (l : Loop) (rest : List UInt8) : Loop → List UInt8 → Prop
  /-- It starts. -/
  | start : Heads l rest l rest
  /-- It has gone on by an iteration. -/
  | next {l' : Loop} {ch : UInt8} {tail : List UInt8} {extra : Nat}
      (h : Heads l rest l' (ch :: tail))
      (hexit : (iteration l'.parser ch tail).exit = .next extra) :
      Heads l rest (l'.advance ch tail extra) (tail.drop extra)

variable {l l' : Loop} {rest rest' : List UInt8}

/-- Bytes that are already consumed are passed over. -/
theorem mainLoop_skip (l : Loop) (skip : Nat) (rest : List UInt8) :
    mainLoop l skip rest = mainLoop l 0 (rest.drop skip) := by
  induction skip generalizing rest with
  | zero => rfl
  | succ skip ih =>
    cases rest with
    | nil => simp [mainLoop]
    | cons ch tail => exact ih tail

/-- An iteration that goes on. -/
theorem mainLoop_next {ch : UInt8} {tail : List UInt8} {extra : Nat}
    (hexit : (iteration l.parser ch tail).exit = .next extra) :
    mainLoop l 0 (ch :: tail) = mainLoop (l.advance ch tail extra) 0 (tail.drop extra) := by
  rw [mainLoop, ← mainLoop_skip]
  simp only [hexit]
  rfl

/-- The loop ends as it does from any state that it comes to. -/
theorem Heads.mainLoop_eq (h : Heads l rest l' rest') :
    mainLoop l 0 rest = mainLoop l' 0 rest' := by
  induction h with
  | start => rfl
  | next _ hexit ih => exact ih.trans (mainLoop_next hexit)

/-- Runs of the loop compose. -/
theorem Heads.trans {l'' : Loop} {rest'' : List UInt8} (h : Heads l rest l' rest')
    (h' : Heads l' rest' l'' rest'') : Heads l rest l'' rest'' := by
  induction h' with
  | start => exact h
  | next _ hexit ih => exact ih.next hexit

/-- The loop comes to the end of the buffer, or to an iteration that does not go on. -/
theorem exists_heads (l : Loop) (rest : List UInt8) : ∃ l' rest', Heads l rest l' rest' ∧
    ∀ ch tail, rest' = ch :: tail → ∀ extra, (iteration l'.parser ch tail).exit ≠ .next extra := by
  induction hn : rest.length using Nat.strong_induction_on generalizing l rest with
  | _ n ih =>
    cases rest with
    | nil => exact ⟨l, [], .start, by simp⟩
    | cons ch tail =>
      cases hexit : (iteration l.parser ch tail).exit with
      | next extra =>
        have hshorter : (tail.drop extra).length < n := by
          rw [← hn, List.length_drop, List.length_cons]
          omega
        obtain ⟨l', rest', hheads, hlast⟩ := ih _ hshorter (l.advance ch tail extra) _ rfl
        exact ⟨l', rest', (Heads.next .start hexit).trans hheads, hlast⟩
      | _ => exact ⟨l, ch :: tail, .start, by simp +contextual [hexit]⟩

/-- What every iteration preserves holds where the loop comes to the switch. -/
theorem Heads.invariant {P : Loop → List UInt8 → Prop} (h : Heads l rest l' rest')
    (hstep : ∀ l ch tail extra, P l (ch :: tail) →
      (iteration l.parser ch tail).exit = .next extra →
        P (l.advance ch tail extra) (tail.drop extra))
    (hP : P l rest) : P l' rest' := by
  induction h with
  | start => exact hP
  | next _ hexit ih => exact hstep _ _ _ _ ih hexit

/-- Where the loop is left from within, by an iteration from a state that it came to. -/
theorem exists_heads_of_returned {n : Nat} (h : mainLoop l 0 rest = .returned l' n) :
    ∃ l₀ ch tail, Heads l rest l₀ (ch :: tail) ∧ l' = l₀.run (iteration l₀.parser ch tail) ∧
      ((∃ off, (iteration l₀.parser ch tail).exit = .error off ∧ n = l₀.p + off) ∨
        ∃ consumed, (iteration l₀.parser ch tail).exit = .ret consumed ∧ n = l₀.p + consumed) := by
  obtain ⟨l₀, rest₀, hheads, hlast⟩ := exists_heads l rest
  rw [hheads.mainLoop_eq] at h
  cases rest₀ with
  | nil => cases h
  | cons ch tail =>
    refine ⟨l₀, ch, tail, hheads, ?_⟩
    rw [mainLoop] at h
    cases hexit : (iteration l₀.parser ch tail).exit with
    | next extra => exact absurd hexit (hlast ch tail rfl extra)
    | error off =>
      simp only [hexit, Outcome.returned.injEq] at h
      exact ⟨h.1.symm, .inl ⟨off, rfl, h.2.symm⟩⟩
    | ret consumed =>
      simp only [hexit, Outcome.returned.injEq] at h
      exact ⟨h.1.symm, .inr ⟨consumed, rfl, h.2.symm⟩⟩
    | abort =>
      simp only [hexit] at h
      cases h

/-- Where the loop uses up the buffer, it has come to its end. -/
theorem heads_of_done (h : mainLoop l 0 rest = .done l') : Heads l rest l' [] := by
  obtain ⟨l₀, rest₀, hheads, hlast⟩ := exists_heads l rest
  rw [hheads.mainLoop_eq] at h
  cases rest₀ with
  | nil =>
    obtain rfl := Outcome.done.inj h
    exact hheads
  | cons ch tail =>
    rw [mainLoop] at h
    cases hexit : (iteration l₀.parser ch tail).exit with
    | next extra => exact absurd hexit (hlast ch tail rfl extra)
    | _ => simp [hexit] at h

/-! ## The marks and the calls of one iteration -/

/-- A mark after the macros of a transition. -/
theorem isSome_marks_foldl (kind : SpanKind) (ops : List Op) (l : Loop) :
    ((ops.foldl Loop.runOp l).marks kind).isSome = markedAfter kind (l.marks kind).isSome ops := by
  induction ops generalizing l with
  | nil => rfl
  | cons op ops ih =>
    rw [List.foldl_cons, ih, markedAfter, markedAfter, List.foldl_cons]
    congr 1
    cases op with
    | mark k =>
      simp only [Loop.runOp, Op.markAfter]
      -- A mark that is set stays where it is.
      split_ifs with hset
      · by_cases hk : k = kind
        · simp [← hk, hset]
        · simp [hk]
      · by_cases hk : k = kind
        · simp [hk]
        · simp [hk, Function.update_of_ne (Ne.symm hk)]
    | callbackData k stop =>
      simp only [Loop.runOp, Loop.callbackData, Op.markAfter]
      -- The callback clears its mark; without one it is not called.
      cases hset : l.marks k with
      | none =>
        by_cases hk : k = kind
        · simp [← hk, hset]
        · simp [hk]
      | some a =>
        by_cases hk : k = kind
        · simp [hk]
        · simp [hk, Function.update_of_ne (Ne.symm hk)]
    | _ => rfl

/-- Where more marks are set before, more are set afterwards. -/
theorem markedAfter_mono {kind : SpanKind} {o o' : Bool} (ho : o = true → o' = true)
    (ops : List Op) (h : markedAfter kind o ops) : markedAfter kind o' ops := by
  induction ops generalizing o o' with
  | nil => exact ho h
  | cons op ops ih =>
    refine ih (fun hop => ?_) h
    cases op with
    | mark k =>
      simp only [Op.markAfter, Bool.or_eq_true] at hop ⊢
      exact hop.imp_left ho
    | callbackData k stop =>
      simp only [Op.markAfter, Bool.and_eq_true] at hop ⊢
      exact hop.imp_left ho
    | _ => exact ho hop

/-- A data callback resets its mark and leaves the others alone. -/
theorem marks_callbackData {kind k : SpanKind} {stop : Nat} (l : Loop) :
    (l.callbackData kind stop).marks k = if k = kind then none else l.marks k := by
  unfold Loop.callbackData
  split
  case h_1 hset =>
    split_ifs with hk
    · rw [hk, hset]
    · rfl
  case h_2 a hset => simp [Function.update_apply]

/-- The span passed to a data callback starts where its mark is. -/
theorem mem_calls_callbackData {kind k : SpanKind} {stop start length : Nat} (l : Loop)
    (h : .onData k start length ∈ (l.callbackData kind stop).calls) :
    .onData k start length ∈ l.calls ∨
      k = kind ∧ length = stop - start ∧ l.marks kind = some start := by
  unfold Loop.callbackData at h
  split at h
  case h_1 => exact .inl h
  case h_2 a hset =>
    simp only at h
    split_ifs at h
    · rcases List.mem_append.mp h with h | h
      · exact .inl h
      · obtain ⟨rfl, rfl, rfl⟩ := Call.onData.inj (List.mem_singleton.mp h)
        exact .inr ⟨rfl, rfl, hset⟩
    · exact .inl h

/-- A data callback leaves the position and the record alone. -/
theorem callbackData_frame {kind : SpanKind} {stop : Nat} (l : Loop) :
    (l.callbackData kind stop).p = l.p ∧ (l.callbackData kind stop).parser = l.parser := by
  unfold Loop.callbackData
  split <;> exact ⟨rfl, rfl⟩

/-- A mark after one macro was set before or is set where the transition starts. -/
theorem marks_runOp {op : Op} {kind : SpanKind} {a : Nat} (h : (l.runOp op).marks kind = some a) :
    l.marks kind = some a ∨ a = l.p := by
  cases op with
  | mark k =>
    simp only [Loop.runOp] at h
    split_ifs at h
    · exact .inl h
    · rcases eq_or_ne kind k with rfl | hk
      · exact .inr (by simpa using h.symm)
      · exact .inl (by simpa [Function.update_of_ne hk] using h)
  | callbackData k stop =>
    rw [Loop.runOp, marks_callbackData] at h
    split_ifs at h
    exact .inl h
  | _ => exact .inl h

/-- One macro leaves the position and the record alone. -/
theorem runOp_frame (op : Op) (l : Loop) :
    (l.runOp op).p = l.p ∧ (l.runOp op).parser = l.parser := by
  cases op with
  | mark k =>
    simp only [Loop.runOp]
    split <;> exact ⟨rfl, rfl⟩
  | callbackData k stop => exact callbackData_frame l
  | _ => exact ⟨rfl, rfl⟩

/-- Where the marks and the calls after the macros of a transition come from. -/
theorem foldl_runOp_spec (ops : List Op) (l : Loop) :
    (ops.foldl Loop.runOp l).p = l.p ∧
    (∀ kind a, (ops.foldl Loop.runOp l).marks kind = some a → l.marks kind = some a ∨ a = l.p) ∧
    ∀ kind start length, .onData kind start length ∈ (ops.foldl Loop.runOp l).calls →
      .onData kind start length ∈ l.calls ∨
        ∃ stop, .callbackData kind stop ∈ ops ∧ length = l.p + stop - start ∧
          (l.marks kind = some start ∨ start = l.p) := by
  induction ops generalizing l with
  | nil => exact ⟨rfl, fun _ _ => .inl, fun _ _ _ => .inl⟩
  | cons op ops ih =>
    have hp := (runOp_frame op l).1
    -- One macro: a call is an old one, or takes the span from its mark.
    have hcalls : ∀ kind start length, .onData kind start length ∈ (l.runOp op).calls →
        .onData kind start length ∈ l.calls ∨
          ∃ stop, op = .callbackData kind stop ∧ length = l.p + stop - start ∧
            l.marks kind = some start := by
      intro kind start length h
      cases op with
      | mark k =>
        simp only [Loop.runOp] at h
        split_ifs at h <;> exact .inl h
      | callbackData k stop =>
        rcases mem_calls_callbackData l h with h | ⟨rfl, hlength, hstart⟩
        · exact .inl h
        · exact .inr ⟨stop, rfl, hlength, hstart⟩
      | _ => exact .inl (by simpa [Loop.runOp] using h)
    obtain ⟨ihp, ihmarks, ihcalls⟩ := ih (l.runOp op)
    rw [List.foldl_cons]
    refine ⟨ihp.trans hp, fun kind a h => ?_, fun kind start length h => ?_⟩
    · rcases ihmarks kind a h with h | h
      · exact marks_runOp h
      · exact .inr (h.trans hp)
    · rcases ihcalls kind start length h with h | ⟨stop, hmem, hlength, hstart⟩
      · rcases hcalls kind start length h with h | ⟨stop, rfl, hlength, hstart⟩
        · exact .inl h
        · exact .inr ⟨stop, List.mem_cons_self, hlength, .inl hstart⟩
      · refine .inr ⟨stop, List.mem_cons_of_mem _ hmem, hp ▸ hlength, ?_⟩
        rcases hstart with hstart | hstart
        · exact marks_runOp hstart
        · exact .inr (hstart.trans hp)

end MosqCluster.Http
