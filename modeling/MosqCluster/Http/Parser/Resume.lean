import MosqCluster.Http.Parser.Extend

/-!
# The next buffer

Between two spans, `http_parser_execute` goes on in a new buffer as the loop would have gone on in a
longer one: the parser record is the same, and offsets are counted from the new start.

## Main definitions

* `Outcome.finish`: what `http_parser_execute` makes of the end of the loop;
* `ExecuteResult.shift`: a result with its offsets in a longer buffer;
* `Shifted`: loop variables of the two runs;
* `InBuffer`: positions, marks and spans lie in the buffer.

## Main results

* `finish_mainLoop_shift`: runs from corresponding loop variables give corresponding results;
* `finish_mainLoop_enter`: so do a run that goes on and a run that starts again;
* `inBuffer_of_heads`: all spans lie in the buffer.
-/

namespace MosqCluster.Http

/-- The part of `http_parser_execute` behind the main loop. -/
def Outcome.finish (size : Nat) : Outcome → Option ExecuteResult
  | .abort => none
  | .returned l nparsed => some ⟨l.parser, l.calls, nparsed⟩
  | .done l => if l.atMostOneMark then some ⟨l.flush.parser, l.flush.calls, size⟩ else none

/-- On a buffer that is not empty, a parser without an error runs the main loop. -/
theorem httpParserExecute_eq {parser : HttpParser} {data : List UInt8}
    (herrno : parser.httpErrno = .OK) (hdata : data ≠ []) :
    httpParserExecute parser data = (mainLoop (.enter parser) 0 data).finish data.length := by
  have hlen : data.length ≠ 0 := by simpa using hdata
  rw [httpParserExecute, if_neg (by simp [herrno]), if_neg hlen]
  rfl

/-- A call whose offset is counted from `n` bytes before. -/
def Call.shift (n : Nat) : Call → Call
  | .onData kind start length => .onData kind (start + n) length
  | call => call

/-- A result with its offsets counted from `n` bytes before, behind calls made there. -/
def ExecuteResult.shift (n : Nat) (calls : List Call) (result : ExecuteResult) : ExecuteResult where
  parser := result.parser
  calls := calls ++ result.calls.map (Call.shift n)
  nparsed := result.nparsed + n

/-- The variables of a loop that has read `n` bytes more, and made `calls` in them. -/
structure Shifted (n : Nat) (calls : List Call) (l l₀ : Loop) : Prop where
  parser : l.parser = l₀.parser
  p : l.p = l₀.p + n
  marks : ∀ kind, l.marks kind = (l₀.marks kind).map (· + n)
  calls : l.calls = calls ++ l₀.calls.map (Call.shift n)

variable {n : Nat} {calls : List Call} {l l₀ : Loop} {parser : HttpParser} {rest : List UInt8}

/-- A data callback in the two runs. -/
theorem Shifted.callbackData (h : Shifted n calls l l₀) (kind : SpanKind) (stop : Nat) :
    Shifted n calls (l.callbackData kind (stop + n)) (l₀.callbackData kind stop) := by
  have hmark := h.marks kind
  unfold Loop.callbackData
  cases hset : l₀.marks kind with
  | none =>
    -- No mark is set in either run.
    rw [hset, Option.map_none] at hmark
    simp only [hmark]
    exact h
  | some a =>
    rw [hset, Option.map_some] at hmark
    simp only [hmark]
    refine ⟨h.parser, h.p, fun k => ?_, ?_⟩
    · rcases eq_or_ne k kind with rfl | hk
      · simp
      · simpa [Function.update_of_ne hk] using h.marks k
    · -- The span has moved, and its length is the same.
      have hlength : stop + n - (a + n) = stop - a := by omega
      cases hkind : kind.installed <;> simp [h.calls, Call.shift, hlength]

/-- A macro in the two runs. -/
theorem Shifted.runOp (h : Shifted n calls l l₀) (op : Op) :
    Shifted n calls (l.runOp op) (l₀.runOp op) := by
  cases op with
  | mark kind =>
    have hsome : (l.marks kind).isSome = (l₀.marks kind).isSome := by simp [h.marks kind]
    simp only [Loop.runOp, hsome]
    -- A mark that is set stays; one that is not is set here.
    split_ifs
    · exact h
    · refine ⟨h.parser, h.p, fun k => ?_, h.calls⟩
      rcases eq_or_ne k kind with rfl | hk
      · simp [h.p]
      · simpa [Function.update_of_ne hk] using h.marks k
  | callbackData kind stop =>
    have := h.callbackData kind (l₀.p + stop)
    rwa [show l₀.p + stop + n = l.p + stop by rw [h.p]; omega] at this
  | _ => exact ⟨h.parser, h.p, h.marks, by simp [Loop.runOp, h.calls, Call.shift]⟩

/-- A transition in the two runs. -/
theorem Shifted.run (h : Shifted n calls l l₀) (t : Transition) :
    Shifted n calls (l.run t) (l₀.run t) := by
  have hops : ∀ (ops : List Op) (l l₀ : Loop), Shifted n calls l l₀ →
      Shifted n calls (ops.foldl Loop.runOp l) (ops.foldl Loop.runOp l₀) := by
    intro ops
    induction ops with
    | nil => exact fun _ _ h => h
    | cons op ops ih => exact fun l l₀ h => ih _ _ (h.runOp op)
  have := hops t.ops l l₀ h
  exact ⟨rfl, this.p, this.marks, this.calls⟩

/-- The left-over callbacks in the two runs. -/
theorem Shifted.flush (h : Shifted n calls l l₀) : Shifted n calls l.flush l₀.flush := by
  have hkinds : ∀ (kinds : List SpanKind) (l l₀ : Loop), Shifted n calls l l₀ →
      Shifted n calls (kinds.foldl (fun l kind => l.callbackData kind l.p) l)
        (kinds.foldl (fun l kind => l.callbackData kind l.p) l₀) := by
    intro kinds
    induction kinds with
    | nil => exact fun _ _ h => h
    | cons kind kinds ih =>
      intro l l₀ h
      have hkind := h.callbackData kind l₀.p
      rw [← h.p] at hkind
      exact ih _ _ hkind
  exact hkinds leftoverOrder l l₀ h

/-- Corresponding loop variables lead to corresponding results. -/
theorem finish_mainLoop_shift (h : Shifted n calls l l₀) (size : Nat) :
    (mainLoop l 0 rest).finish (size + n) =
      ((mainLoop l₀ 0 rest).finish size).map (ExecuteResult.shift n calls) := by
  induction hlen : rest.length using Nat.strong_induction_on generalizing l l₀ rest with
  | _ len ih =>
    cases rest with
    | nil =>
      -- The marks that are set are the same, so that both runs end or both abort.
      have hflush := h.flush
      have hone : l.atMostOneMark = l₀.atMostOneMark := by
        have hsome : ∀ kind, (l.marks kind).isSome = (l₀.marks kind).isSome := fun kind => by
          simp [h.marks kind]
        simp only [Loop.atMostOneMark, hsome]
      simp only [mainLoop, Outcome.finish, hone]
      split_ifs
      · rw [Option.map_some, ExecuteResult.shift, hflush.parser, hflush.calls]
      · rfl
    | cons ch tail =>
      have hrun := h.run (iteration l₀.parser ch tail)
      rw [mainLoop, mainLoop, h.parser]
      cases hexit : (iteration l₀.parser ch tail).exit with
      | next extra =>
        simp only
        rw [mainLoop_skip, mainLoop_skip _ extra]
        -- Both runs go on behind the same bytes.
        have hshorter : (tail.drop extra).length < len := by
          rw [← hlen, List.length_drop, List.length_cons]
          omega
        refine ih _ hshorter ⟨rfl, ?_, hrun.marks, hrun.calls⟩ rfl
        simp only [h.p]
        omega
      | error off =>
        -- Both runs return, and `nparsed` counts the bytes that the one has read more.
        simp only [Outcome.finish, Option.map_some, ExecuteResult.shift, hrun.parser, hrun.calls,
          h.p, Option.some.injEq, ExecuteResult.mk.injEq, true_and]
        omega
      | ret consumed =>
        simp only [Outcome.finish, Option.map_some, ExecuteResult.shift, hrun.parser, hrun.calls,
          h.p, Option.some.injEq, ExecuteResult.mk.injEq, true_and]
        omega
      | abort => rfl

/-! ## Starting again -/

/-- Where a span may be resumed whose mark need not be set, the first macro sets it. -/
theorem exists_ops_dispatch {kind : SpanKind} (ch : UInt8) (tail : List UInt8)
    (hheld : heldMark parser.state = none) (hresume : resumeMark parser.state = some kind) :
    ∃ ops, (dispatch parser ch tail).ops = .mark kind :: ops := by
  have hstep : ∀ ops, (stepUrl parser ch (.mark kind :: ops)).ops = .mark kind :: ops := by
    intro ops
    unfold stepUrl
    simp only
    split_ifs <;> rfl
  unfold dispatch
  -- Only the states of a query and of a fragment may resume a span whose mark need not be set.
  cases hs : parser.state <;> rw [hs] at hheld hresume <;>
    first
    | (simp [resumeMark] at hresume; done)
    | (simp [heldMark, resumeMark] at hheld; done)
    | skip
  case reqQueryStringStart | reqQueryString =>
    obtain rfl : SpanKind.queryField = kind := Option.some.inj hresume
    simp only [onReqQueryString]
    split_ifs
    exacts [⟨_, rfl⟩, ⟨_, rfl⟩, ⟨_, rfl⟩, ⟨_, hstep []⟩]
  case reqQueryValueStart | reqQueryValue =>
    obtain rfl : SpanKind.queryValue = kind := Option.some.inj hresume
    simp only [onReqQueryValue]
    split_ifs
    exacts [⟨_, rfl⟩, ⟨_, rfl⟩, ⟨_, rfl⟩, ⟨_, hstep []⟩]
  case reqFragmentStart | reqFragment =>
    obtain rfl : SpanKind.fragment = kind := Option.some.inj hresume
    simp only [onReqFragment]
    split_ifs
    exacts [⟨_, rfl⟩, ⟨_, hstep []⟩]

/-- The same for an iteration, unless the header is too long. -/
theorem exists_ops_iteration {kind : SpanKind} (ch : UInt8) (tail : List UInt8)
    (hheld : heldMark parser.state = none) (hresume : resumeMark parser.state = some kind) :
    (∃ parser', iteration parser ch tail = .fail parser' .HEADER_OVERFLOW []) ∨
      ∃ ops, (iteration parser ch tail).ops = .mark kind :: ops := by
  unfold iteration
  split_ifs
  · simp only
    split_ifs
    · exact .inl ⟨_, rfl⟩
    · exact .inr (exists_ops_dispatch ch tail hheld hresume)
  · exact .inr (exists_ops_dispatch ch tail hheld hresume)

/-- In such a state it makes no difference whether the mark is set before the first iteration. -/
theorem finish_mainLoop_resume (hmarks : l.marks = noMarks) (hholds : HoldsMarks l)
    (hrest : rest ≠ []) (size : Nat) :
    (mainLoop l 0 rest).finish size =
      (mainLoop { l with
        marks := fun kind => if resumeMark l.parser.state = some kind then some l.p else none } 0
        rest).finish size := by
  set l' : Loop := { l with
    marks := fun kind => if resumeMark l.parser.state = some kind then some l.p else none } with hl'
  -- No mark is set, so that the state holds none.
  have hheld : heldMark l.parser.state = none := by
    by_contra hne
    obtain ⟨kind, hkind⟩ := Option.ne_none_iff_exists'.mp hne
    have := hholds kind hkind
    rw [hmarks] at this
    cases this
  cases hresume : resumeMark l.parser.state with
  | none =>
    -- There is nothing to set.
    have : l' = l := by
      rw [hl', hresume]
      simp only [reduceCtorEq, if_false]
      rw [← show l.marks = fun _ => none from hmarks]
    rw [this]
  | some kind =>
    obtain ⟨ch, tail, rfl⟩ := List.exists_cons_of_ne_nil hrest
    obtain ⟨parser', hfail⟩ | ⟨ops, hops⟩ :=
      exists_ops_iteration ch tail hheld hresume
    · -- The loop is left before any macro.
      rw [mainLoop, mainLoop, show l'.parser = l.parser from rfl, hfail]
      rfl
    · -- The first macro sets the mark to the same place.
      have hmark : l.runOp (.mark kind) = l'.runOp (.mark kind) := by
        simp only [Loop.runOp, hl', hmarks, hresume, noMarks, Option.isSome_none,
          Bool.false_eq_true, if_false, if_true, Option.isSome_some]
        congr 1
        funext k
        rcases eq_or_ne k kind with rfl | hk
        · simp
        · simp [Function.update_of_ne hk, hk.symm, noMarks]
      have hrun : l.run (iteration l.parser ch tail) = l'.run (iteration l.parser ch tail) := by
        rw [Loop.run, Loop.run, hops, List.foldl_cons, List.foldl_cons, hmark]
      rw [mainLoop, mainLoop, show l'.parser = l.parser from rfl, hrun]

/-- A run that goes on between two spans, and one that starts again there. -/
theorem finish_mainLoop_enter (hmarks : l.marks = noMarks) (hholds : HoldsMarks l)
    (hrest : rest ≠ []) (size : Nat) :
    (mainLoop l 0 rest).finish (size + l.p) =
      ((mainLoop (.enter l.parser) 0 rest).finish size).map (.shift l.p l.calls) := by
  have hshift : Shifted l.p l.calls { l with
      marks := fun kind => if resumeMark l.parser.state = some kind then some l.p else none }
      (.enter l.parser) := by
    refine ⟨rfl, (Nat.zero_add _).symm, fun kind => ?_, ?_⟩
    · simp only [Loop.enter]
      split_ifs <;> simp
    · simp [Loop.enter]
  rw [finish_mainLoop_resume hmarks hholds hrest, finish_mainLoop_shift hshift]

/-! ## Spans lie in the buffer -/

/-- The loop has `rest` left of a buffer of the given size, and all marks and spans lie in it. -/
structure InBuffer (size : Nat) (l : Loop) (rest : List UInt8) : Prop where
  size_eq : l.p + rest.length = size
  marks : ∀ kind a, l.marks kind = some a → a ≤ l.p
  calls : ∀ kind start length, .onData kind start length ∈ l.calls → start + length ≤ size

variable {size : Nat}

/-- A transition keeps to the buffer. -/
theorem InBuffer.run {ch : UInt8} {tail : List UInt8} (h : InBuffer size l (ch :: tail)) :
    (∀ kind a, (l.run (iteration l.parser ch tail)).marks kind = some a → a ≤ l.p) ∧
      ∀ kind start length, .onData kind start length ∈ (l.run (iteration l.parser ch tail)).calls →
        start + length ≤ size := by
  obtain ⟨-, hmarks, hcalls⟩ := foldl_runOp_spec (iteration l.parser ch tail).ops l
  have hsize := h.size_eq
  rw [List.length_cons] at hsize
  refine ⟨fun kind a ha => ?_, fun kind start length hmem => ?_⟩
  · rcases hmarks kind a ha with ha | rfl
    · -- A mark is an old one, or was set at `p`.
      exact h.marks kind a ha
    · exact le_rfl
  · rcases hcalls kind start length hmem with hmem | ⟨stop, hop, rfl, hstart⟩
    · -- A span is an old one, or ends before the end of the buffer.
      exact h.calls kind start length hmem
    · have hstop := iteration_keepsMarks.stop_le kind stop hop
      have hle : start ≤ l.p := by
        rcases hstart with hstart | rfl
        · exact h.marks kind start hstart
        · exact le_rfl
      omega

/-- An iteration that goes on keeps to the buffer. -/
theorem InBuffer.advance {ch : UInt8} {tail : List UInt8} {extra : Nat}
    (h : InBuffer size l (ch :: tail))
    (hexit : (iteration l.parser ch tail).exit = .next extra) :
    InBuffer size (l.advance ch tail extra) (tail.drop extra) := by
  have hextra := iteration_keepsMarks.extra_le extra hexit
  have hsize := h.size_eq
  rw [List.length_cons] at hsize
  have hp : (l.advance ch tail extra).p = l.p + extra + 1 := rfl
  refine ⟨?_, fun kind a ha => ?_, h.run.2⟩
  · rw [hp, List.length_drop]
    omega
  · have := h.run.1 kind a ha
    rw [hp]
    omega

/-- A run keeps to the buffer. -/
theorem inBuffer_of_heads {data : List UInt8} (h : Heads (.enter parser) data l rest) :
    InBuffer data.length l rest := by
  refine h.invariant (fun _ _ _ _ hin hexit => hin.advance hexit) ⟨?_, fun kind a ha => ?_, ?_⟩
  · exact Nat.zero_add _
  · simp only [Loop.enter] at ha
    split_ifs at ha
    exact (Option.some.inj ha).ge
  · simp [Loop.enter]

end MosqCluster.Http
