import MosqCluster.Foundation.TransitionSystem
import MosqCluster.Http.Parser.MainLoop

/-!
# The mark discipline

At the end of a buffer at most one mark may be set, and the spans of the request target should lie
in their components. Both hold for every buffer in which no byte is a bad turn, whatever the parser
has read before. A bad turn breaks the discipline: where the buffer ends with it, the span that is
left open holds the byte that should have ended it.

## Main definitions

* `components`: the component of the request target that each byte of a buffer is in;
* `MarksKept`: the discipline for one buffer;
* `connection`: the parser of a connection, buffer after buffer;
* `MarkDiscipline`: the discipline along all runs whose buffers meet a condition.

## Main results

* `markDiscipline_noBadTurn`: the discipline holds as long as no byte is a bad turn;
* `not_marksKept_of_badTurn`: every bad turn breaks it.
-/

namespace MosqCluster.Http

/-- The component of the request target that each byte is in, where the first `skip` bytes are
passed over. -/
def components (parser : HttpParser) : Nat → List UInt8 → List (Option SpanKind)
  | _, [] => []
  | skip + 1, _ :: tail => none :: components parser skip tail
  | 0, ch :: tail =>
    targetComponent parser.state ch ::
      match (iteration parser ch tail).exit with
      | .next extra => components (iteration parser ch tail).parser extra tail
      | _ => tail.map fun _ => none

/-- No byte is read at a bad turn, where the first `skip` bytes are passed over. -/
def noBadTurn (parser : HttpParser) : Nat → List UInt8 → Bool
  | _, [] => true
  | skip + 1, _ :: tail => noBadTurn parser skip tail
  | 0, ch :: tail =>
    !badTurn parser ch &&
      match (iteration parser ch tail).exit with
      | .next extra => noBadTurn (iteration parser ch tail).parser extra tail
      | _ => true

/-- The bytes from `a` to `b` are in the component `kind`. -/
def InComponent (cs : List (Option SpanKind)) (kind : SpanKind) (a b : Nat) : Prop :=
  ∀ i, a ≤ i → i < b → cs[i]? = some (some kind)

/-- The discipline for one buffer: where the buffer is used up at most one mark is set, and every
span of the request target lies in its component. -/
structure MarksKept (parser : HttpParser) (data : List UInt8) : Prop where
  /-- The end-of-buffer assertion holds. -/
  atMostOne : ∀ l, parser.httpErrno = .OK → mainLoop (.enter parser) 0 data = .done l →
    l.atMostOneMark
  /-- The spans lie in their components. -/
  inside : ∀ result, httpParserExecute parser data = some result →
    ∀ kind start length, .onData kind start length ∈ result.calls → kind.ofTarget →
      InComponent (components parser 0 data) kind start (start + length)

/-- The parser of a connection; a label is a buffer. -/
def connection : TransitionSystem HttpParser (List UInt8) where
  init := httpParserInit .request
  next parser data := (httpParserExecute parser data).map ExecuteResult.parser

/-- The discipline for every state that buffers which meet `ok` lead to, and every next such
buffer. -/
def MarkDiscipline (ok : HttpParser → List UInt8 → Prop)
    [∀ parser data, Decidable (ok parser data)] : Prop :=
  ∀ parser, (connection.restrict ok).Reachable parser → ∀ data, ok parser data →
    MarksKept parser data

/-! ## Passing over bytes -/

variable {parser : HttpParser} {l : Loop} {ch : UInt8} {tail rest : List UInt8}
  {cs : List (Option SpanKind)}

/-- Every byte has a component or none. -/
theorem length_components (parser : HttpParser) (skip : Nat) (rest : List UInt8) :
    (components parser skip rest).length = rest.length := by
  induction rest generalizing parser skip with
  | nil => cases skip <;> rfl
  | cons ch tail ih =>
    cases skip with
    | succ skip => simp [components, ih]
    | zero =>
      rw [components, List.length_cons, List.length_cons]
      split
      · rw [ih]
      · rw [List.length_map]

/-- The components of the bytes that follow those passed over. -/
theorem drop_components (parser : HttpParser) (skip : Nat) (rest : List UInt8) :
    (components parser skip rest).drop skip = components parser 0 (rest.drop skip) := by
  induction rest generalizing skip with
  | nil => cases skip <;> rfl
  | cons ch tail ih =>
    cases skip with
    | zero => rfl
    | succ skip => exact ih skip

/-- The bytes passed over are no bad turns. -/
theorem noBadTurn_skip (parser : HttpParser) (skip : Nat) (rest : List UInt8) :
    noBadTurn parser skip rest = noBadTurn parser 0 (rest.drop skip) := by
  induction rest generalizing skip with
  | nil => cases skip <;> rfl
  | cons ch tail ih =>
    cases skip with
    | zero => rfl
    | succ skip => exact ih skip

/-! ## The invariant of the main loop -/

/-- What the loop keeps, where the bytes of the buffer have the components `cs`. -/
structure InsideMarks (cs : List (Option SpanKind)) (l : Loop) (rest : List UInt8) : Prop where
  /-- The bytes from `p` on have the components that the parser gives them. -/
  components_eq : cs.drop l.p = components l.parser 0 rest
  /-- None of them is a bad turn. -/
  turns : noBadTurn l.parser 0 rest
  /-- A mark that is set belongs to the state and covers bytes of its component. -/
  marks : ∀ kind a, l.marks kind = some a → openMark l.parser.state = some kind ∧
    (kind.ofTarget → InComponent cs kind a l.p)
  /-- So do the spans passed to the callbacks. -/
  calls : ∀ kind start length, .onData kind start length ∈ l.calls → kind.ofTarget →
    InComponent cs kind start (start + length)

/-- A span that ends where the transition starts lies in its component. -/
theorem InsideMarks.span (h : InsideMarks cs l rest) {kind : SpanKind} {start : Nat}
    (hkind : kind.ofTarget) (hstart : l.marks kind = some start ∨ start = l.p) :
    InComponent cs kind start (start + (l.p - start)) := by
  intro i hle hlt
  rcases hstart with hstart | rfl
  · exact ((h.marks kind start hstart).2 hkind) i hle (by omega)
  · omega

/-- The spans passed to the callbacks by a transition lie in their components. -/
theorem InsideMarks.calls_run (h : InsideMarks cs l (ch :: tail)) :
    ∀ kind start length, .onData kind start length ∈ (l.run (iteration l.parser ch tail)).calls →
      kind.ofTarget → InComponent cs kind start (start + length) := by
  intro kind start length hmem hkind
  obtain ⟨-, -, hcalls⟩ := foldl_runOp_spec (iteration l.parser ch tail).ops l
  rcases hcalls kind start length hmem with hmem | ⟨stop, hop, rfl, hstart⟩
  · exact h.calls kind start length hmem hkind
  · obtain rfl := iteration_keepsMarks.stop_eq_zero kind stop hkind hop
    exact h.span hkind hstart

/-- An iteration that goes on keeps the invariant. -/
theorem InsideMarks.step (h : InsideMarks cs l (ch :: tail)) {extra : Nat}
    (hexit : (iteration l.parser ch tail).exit = .next extra) :
    InsideMarks cs (l.advance ch tail extra) (tail.drop extra) := by
  have hkeeps : KeepsMarks l.parser ch tail (iteration l.parser ch tail) := iteration_keepsMarks
  obtain ⟨hbad, hnext⟩ : badTurn l.parser ch = false ∧
      noBadTurn (iteration l.parser ch tail).parser extra tail = true := by
    simpa [noBadTurn, hexit] using h.turns
  have hcomponents : cs.drop l.p = targetComponent l.parser.state ch ::
      components (iteration l.parser ch tail).parser extra tail := by
    simpa [components, hexit] using h.components_eq
  -- The byte that is read belongs to the component of the state.
  have hbyte : cs[l.p]? = some (targetComponent l.parser.state ch) := by
    rw [← Nat.add_zero l.p, ← List.getElem?_drop, hcomponents, List.getElem?_cons_zero]
  refine ⟨?_, noBadTurn_skip _ _ _ ▸ hnext, fun kind a ha => ?_, h.calls_run⟩
  · rw [← drop_components, Loop.advance]
    simp only
    rw [Nat.add_assoc, Nat.add_comm extra 1, ← List.drop_drop, ← List.drop_drop, hcomponents]
    rfl
  · -- A mark is an old one, or was set at this byte.
    obtain ⟨-, hmarks, -⟩ := foldl_runOp_spec (iteration l.parser ch tail).ops l
    have hmarked : markedAfter kind (openMark l.parser.state = some kind)
        (iteration l.parser ch tail).ops := by
      refine markedAfter_mono (fun hset => ?_) _ ((isSome_marks_foldl kind _ l).symm.trans ?_)
      · obtain ⟨a', ha'⟩ := Option.isSome_iff_exists.mp hset
        simpa using (h.marks kind a' ha').1
      · exact Option.isSome_iff_exists.mpr ⟨a, ha⟩
    refine ⟨hkeeps.closes extra hexit kind (by simp [hbad]) hmarked, fun hkind i hle hlt => ?_⟩
    obtain ⟨hcomponent, rfl⟩ := hkeeps.component extra hexit hbad kind hkind hmarked
    rcases Nat.lt_succ_iff_lt_or_eq.mp hlt with hlt | rfl
    · rcases hmarks kind a ha with ha | rfl
      · exact (h.marks kind a ha).2 hkind i hle hlt
      · omega
    · rw [← hcomponent]
      exact hbyte

/-- The invariant holds before the first iteration. -/
theorem insideMarks_enter {data : List UInt8} (h : noBadTurn parser 0 data) :
    InsideMarks (components parser 0 data) (.enter parser) data := by
  refine ⟨rfl, h, fun kind a ha => ?_, by simp [Loop.enter]⟩
  simp only [Loop.enter] at ha
  split_ifs at ha with hresume
  obtain rfl := Option.some.inj ha
  exact ⟨openMark_of_resumeMark hresume, fun _ i hle hlt => absurd hlt (Nat.not_lt.mpr hle)⟩

/-! ## The discipline -/

/-- Where all marks that are set belong to one state, at most one is set. -/
theorem atMostOneMark_of_openMark (h : ∀ kind a, l.marks kind = some a →
      openMark l.parser.state = some kind) : l.atMostOneMark := by
  have hset : ∀ kind, (l.marks kind).isSome → openMark l.parser.state = some kind := by
    intro kind hkind
    obtain ⟨a, ha⟩ := Option.isSome_iff_exists.mp hkind
    exact h kind a ha
  have hone : ∀ o : Option SpanKind, leftoverOrder.countP (fun kind => o = some kind) ≤ 1 := by
    intro o
    rcases o with _ | kind
    · decide
    · cases kind <;> decide
  rw [Loop.atMostOneMark, ← List.countP_eq_length_filter, decide_eq_true_eq]
  calc leftoverOrder.countP (fun kind => (l.marks kind).isSome)
      ≤ leftoverOrder.countP (fun kind => openMark l.parser.state = some kind) :=
        List.countP_mono_left fun kind _ hkind => by simpa using hset kind hkind
    _ ≤ 1 := hone _

/-- The calls made for the marks that are still set at the end of the buffer. -/
theorem mem_calls_flush {kind : SpanKind} {start length : Nat}
    (h : .onData kind start length ∈ l.flush.calls) : .onData kind start length ∈ l.calls ∨
      length = l.p - start ∧ l.marks kind = some start := by
  have hfold : ∀ (kinds : List SpanKind) (l : Loop), .onData kind start length ∈
        (kinds.foldl (fun l kind => l.callbackData kind l.p) l).calls →
      .onData kind start length ∈ l.calls ∨ length = l.p - start ∧ l.marks kind = some start := by
    intro kinds
    induction kinds with
    | nil => exact fun _ => .inl
    | cons k kinds ih =>
      intro l h
      rcases ih _ h with h | ⟨hlength, hstart⟩
      · rcases mem_calls_callbackData l h with h | ⟨rfl, hlength, hstart⟩
        · exact .inl h
        · exact .inr ⟨hlength, hstart⟩
      · rw [marks_callbackData] at hstart
        split_ifs at hstart
        exact .inr ⟨(callbackData_frame l).1 ▸ hlength, hstart⟩
  exact hfold leftoverOrder l h

/-- Without a bad turn the marks are kept. -/
theorem marksKept_of_noBadTurn {data : List UInt8} (h : noBadTurn parser 0 data) :
    MarksKept parser data := by
  have henter := insideMarks_enter h
  have hheads : ∀ l rest, Heads (.enter parser) data l rest →
      InsideMarks (components parser 0 data) l rest := fun l rest hheads =>
    hheads.invariant (fun _ _ _ _ hs hexit => hs.step hexit) henter
  constructor
  · intro l _ hdone
    have hend := hheads l [] (heads_of_done hdone)
    exact atMostOneMark_of_openMark fun kind a ha => (hend.marks kind a ha).1
  · intro result hresult kind start length hmem hkind
    unfold httpParserExecute at hresult
    -- Without a byte there is no call.
    split_ifs at hresult with herrno hempty
    · obtain rfl := Option.some.inj hresult
      simp at hmem
    · obtain rfl := Option.some.inj hresult
      unfold executeEof at hmem
      split at hmem <;> simp at hmem
    split at hresult
    case h_1 => cases hresult
    case h_2 l n hreturned =>
      obtain rfl := Option.some.inj hresult
      -- The loop returns early: the calls are those of its iterations.
      obtain ⟨l₀, ch, tail, hhead, rfl, -⟩ := exists_heads_of_returned hreturned
      exact (hheads l₀ _ hhead).calls_run kind start length hmem hkind
    case h_3 l hdone =>
      split_ifs at hresult
      obtain rfl := Option.some.inj hresult
      have hend := hheads l [] (heads_of_done hdone)
      -- At the end of the buffer the open span is reported too.
      rcases mem_calls_flush hmem with hmem | ⟨rfl, hstart⟩
      · exact hend.calls kind start length hmem hkind
      · exact hend.span hkind (.inl hstart)

/-- In every run in which no byte is read at a bad turn, at most one mark is set at the end of each
buffer and the spans of the request target lie in their components. -/
theorem markDiscipline_noBadTurn {parser : HttpParser}
    (_ : (connection.restrict fun parser data => noBadTurn parser 0 data).Reachable parser)
    {data : List UInt8} (hdata : noBadTurn parser 0 data) : MarksKept parser data :=
  marksKept_of_noBadTurn hdata

/-- A request without a query, cut after its first header. -/
theorem markDiscipline_noBadTurn_request :
    MarksKept connection.init (bytes "GET /p HTTP/1.1\r\nHost: h\r\n") :=
  markDiscipline_noBadTurn .refl (by decide)

/-- A request whose query has no value, cut in a header name: the mark of the query is still set. -/
def queryCutInHeader : List UInt8 := bytes "GET /p?a HTTP/1.1\r\nHost"

/-- Not every run keeps the discipline. -/
theorem not_markDiscipline : ¬ MarkDiscipline fun _ _ => True := by
  intro h
  have hkept := h _ .refl queryCutInHeader trivial
  have hmarks : (match mainLoop (.enter connection.init) 0 queryCutInHeader with
      | .done l => l.atMostOneMark
      | _ => true) = false := by decide
  split at hmarks
  case h_1 l hdone => exact absurd (hkept.atMostOne l rfl hdone) (by simp [hmarks])
  case h_2 => cases hmarks

/-! ## Bad turns -/

/-- A bad turn leaves a component and sets or keeps its mark. -/
theorem iteration_of_badTurn (h : badTurn parser ch)
    (hsize : (parser.addNread 1).headerOverflow = false) :
    ∃ kind, (kind = .url ∨ kind = .queryField) ∧ targetComponent parser.state ch ≠ some kind ∧
      (iteration parser ch []).exit = .next 0 ∧
      ((iteration parser ch []).ops = [.mark kind] ∧
          (resumeMark parser.state = none ∨ resumeMark parser.state = some kind) ∨
        (iteration parser ch []).ops = [] ∧ resumeMark parser.state = some kind) := by
  have hdispatch : parser.state.parsingHeader →
      iteration parser ch [] = dispatch (parser.addNread 1) ch [] := by
    intro hheader
    simp [iteration, hheader, hsize]
  unfold badTurn at h
  split at h
  -- A `CONNECT` target that begins with a query.
  case h_1 hs =>
    obtain ⟨hmethod, rfl⟩ : parser.method = .CONNECT ∧ ch = '?' := by simpa using h
    rw [hdispatch (by rw [hs]; rfl), hs]
    refine ⟨.url, .inl rfl, by decide, ?_, .inl ⟨?_, .inl rfl⟩⟩ <;>
      simp +decide [dispatch, hs, HttpParser.addNread, onReqSpacesBeforeUrl, hmethod, stepUrl,
        Transition.next]
  case h_2 hs =>
    obtain rfl : ch = '?' := by simpa using h
    rw [hdispatch (by rw [hs]; rfl), hs]
    refine ⟨.url, .inl rfl, by decide, ?_, .inr ⟨?_, rfl⟩⟩ <;>
      simp +decide [dispatch, hs, HttpParser.addNread, onReqSchema, stepUrl, Transition.next]
  case h_3 hs =>
    obtain rfl : ch = '#' := by simpa using h
    rw [hdispatch (by rw [hs]; rfl), hs]
    refine ⟨.url, .inl rfl, by decide, ?_, .inr ⟨?_, rfl⟩⟩ <;>
      simp +decide [dispatch, hs, HttpParser.addNread, onReqPath, stepUrl, Transition.next]
  -- A query name that no `=` ends: its mark is set, and no callback clears it.
  case h_4 hs =>
    rw [hdispatch (by rw [hs]; rfl), hs]
    have hch : ch = ' ' ∨ ch = '#' ∨ ch = '&' := by simpa [or_assoc] using h
    rcases hch with rfl | rfl | rfl <;>
      refine ⟨.queryField, .inr rfl, by decide, ?_, .inl ⟨?_, .inr rfl⟩⟩ <;>
      simp +decide [dispatch, hs, HttpParser.addNread, onReqQueryString, stepUrl, Transition.next]
  case h_5 hs =>
    rw [hdispatch (by rw [hs]; rfl), hs]
    have hch : ch = ' ' ∨ ch = '#' ∨ ch = '&' := by simpa [or_assoc] using h
    rcases hch with rfl | rfl | rfl <;>
      refine ⟨.queryField, .inr rfl, by decide, ?_, .inl ⟨?_, .inr rfl⟩⟩ <;>
      simp +decide [dispatch, hs, HttpParser.addNread, onReqQueryString, stepUrl, Transition.next]
  case h_6 => cases h

/-- A buffer that ends with a bad turn breaks the discipline: the byte that ends the component is
passed on with it. -/
theorem not_marksKept_of_badTurn (h : badTurn parser ch) (herrno : parser.httpErrno = .OK)
    (hsize : (parser.addNread 1).headerOverflow = false) : ¬ MarksKept parser [ch] := by
  intro hkept
  obtain ⟨kind, hkind, hcomponent, hexit, hops⟩ := iteration_of_badTurn h hsize
  set l := (Loop.enter parser).advance ch [] 0 with hl
  have hdone : mainLoop (.enter parser) 0 [ch] = .done l := by
    rw [mainLoop_next (l := .enter parser) hexit]
    rfl
  have hmarks : l.marks = fun k => if k = kind then some 0 else none := by
    have hmarks : l.marks = ((iteration parser ch []).ops.foldl Loop.runOp (.enter parser)).marks :=
      rfl
    rw [hmarks]
    funext k
    rcases hops with ⟨hops, hresume | hresume⟩ | ⟨hops, hresume⟩ <;>
      simp [hops, Loop.runOp, Loop.enter, hresume, Function.update_apply, eq_comm]
  have hp : l.p = 1 := rfl
  have hcall : .onData kind 0 1 ∈ l.flush.calls := by
    rcases hkind with rfl | rfl <;>
      simp [Loop.flush, leftoverOrder, Loop.callbackData, hmarks, hp, SpanKind.installed]
  have hresult : httpParserExecute parser [ch] = some ⟨l.flush.parser, l.flush.calls, 1⟩ := by
    simp [httpParserExecute, herrno, hdone, hkept.atMostOne l herrno hdone]
  have hinside := hkept.inside _ hresult kind 0 1 hcall (by rcases hkind with rfl | rfl <;> rfl) 0
    le_rfl Nat.one_pos
  exact hcomponent (by simpa [components] using hinside)

end MosqCluster.Http
