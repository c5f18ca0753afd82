import MosqCluster.Http.Parser.Phases
import MosqCluster.Http.Pipelining
import MosqCluster.Http.QueryString

/-!
# The queries of a request

A request that comes in one buffer, with a path and a query string in its target. The parser comes
to the question mark with no query read and none begun, reads the pairs of the query string byte by
byte, and does not touch the queries again before the end of the message. So the queries of the
request are those pairs, which are what the query string says only if it is readable.

## Main definitions

* `HasTarget`: the target of the request that the buffer begins with;
* `Reading`: where the parser is in the query string;
* `FirstMessage`: the queries are final, or another message has begun.

## Main results

* `queries_append`: the queries are the pairs that the states of the query string read;
* `queries_eq_iff_readable`: they are what the query string says if it is readable, and only then.
-/

namespace MosqCluster.Http

/-- Behind the method, and behind the target. -/
abbrev SPACE : UInt8 := ' '

/-- Between the path and the query string. -/
abbrev QUESTION : UInt8 := '?'

/-- What the callbacks have stored so far. -/
def Loop.request (data : Bytes) (l : Loop) : HttpRequest :=
  l.calls.foldl (HttpRequest.call data) .fresh

/-- The run ends as that of a complete request of the given size does. -/
def Outcome.completes (size : Nat) : Outcome → Bool
  | .done l =>
    l.atMostOneMark && l.calls.count .onMessageComplete = 1 &&
      (l.parser.state = .startReq || l.parser.state = .dead)
  | .returned l nparsed =>
    l.parser.httpErrno = .OK && l.calls.count .onMessageComplete = 1 && nparsed = size
  | .abort => false

variable {data q rest tail : Bytes} {l l₀ l' : Loop} {ch : UInt8} {kind : SpanKind} {ops : List Op}
  {size : Nat} {t : Transition}

/-! ## Iterations of a complete request -/

/-- That of a complete request does so. -/
theorem completes_of_complete (h : Complete data) :
    (mainLoop (.enter (httpParserInit .request)) 0 data).completes data.length := by
  unfold Complete at h
  unfold Outcome.completes
  cases hloop : mainLoop (.enter (httpParserInit .request)) 0 data with
  | done l | returned l nparsed => rwa [hloop] at h
  | abort => simp [hloop] at h

/-- An iteration does not fail. -/
theorem exit_of_completes (h : (mainLoop l 0 (ch :: tail)).completes size) :
    (∃ extra, (iteration l.parser ch tail).exit = .next extra) ∨
      ∃ consumed, (iteration l.parser ch tail).exit = .ret consumed := by
  have herrno := (iteration_advances l.parser ch tail).error
  rw [mainLoop] at h
  cases hexit : (iteration l.parser ch tail).exit with
  | next extra => exact .inl ⟨extra, rfl⟩
  | ret consumed => exact .inr ⟨consumed, rfl⟩
  | error off =>
    simp only [hexit, Outcome.completes, Bool.and_eq_true, decide_eq_true_eq] at h
    exact absurd h.1.1 (herrno off hexit)
  | abort =>
    simp only [hexit] at h
    cases h

/-- In a header, it is one pass through the switch. -/
theorem iteration_of_completes (h : (mainLoop l 0 (ch :: tail)).completes size)
    (hheader : l.parser.state.parsingHeader) :
    iteration l.parser ch tail = dispatch (l.parser.addNread 1) ch tail := by
  have hexit := exit_of_completes h
  revert hexit
  unfold iteration
  simp only [hheader, if_true]
  split_ifs
  · simp [Transition.fail]
  · exact fun _ => rfl

/-- Where the loop comes to the switch, `p` is at what is left of the buffer. -/
theorem drop_of_heads {parser : HttpParser} (h : Heads (.enter parser) data l rest) :
    data.drop l.p = rest := by
  refine h.invariant (P := fun l rest => data.drop l.p = rest) ?_ rfl
  intro l ch tail extra hdrop _
  rw [show (l.advance ch tail extra).p = l.p + (extra + 1) from rfl, ← List.drop_drop, hdrop,
    List.drop_succ_cons]

/-! ## Macros that are not about the query string -/

/-- The marks and the queries of the query string are as they were. -/
structure SameQueries (data : Bytes) (l l' : Loop) : Prop where
  marks : ∀ kind, kind.ofQuery → l'.marks kind = l.marks kind
  queries : (l'.request data).queries = (l.request data).queries

/-- One macro that is not about the query string. -/
theorem sameQueries_runOp (data : Bytes) (l : Loop) {op : Op} (hop : op.ofQuery = false) :
    SameQueries data l (l.runOp op) := by
  have hne : ∀ {k kind : SpanKind}, k.ofQuery = false → kind.ofQuery → kind ≠ k := by
    rintro k _ hk hkind rfl
    simp [hk] at hkind
  cases op with
  | mark k =>
    simp only [Loop.runOp]
    split_ifs
    · exact ⟨fun _ _ => rfl, rfl⟩
    · exact ⟨fun kind hkind => Function.update_of_ne (hne hop hkind) _ _, rfl⟩
  | callbackData k stop =>
    refine ⟨fun kind hkind => ?_, ?_⟩
    · rw [Loop.runOp, marks_callbackData, if_neg (hne hop hkind)]
    · simp only [Loop.runOp, Loop.callbackData]
      split
      · rfl
      · split_ifs
        · -- only the callback for a value changes the queries
          rw [Loop.request, List.foldl_append]
          cases k <;> first | rfl | cases hop
        · rfl
  | messageBegin | headersComplete method | messageComplete =>
    exact ⟨fun _ _ => rfl, by simp [Loop.request, Loop.runOp, HttpRequest.call,
      HttpRequest.onHeadersComplete, HttpRequest.onMessageComplete]⟩

/-- Macros that are not about the query string. -/
theorem sameQueries_foldl (data : Bytes) (l : Loop) (hops : ∀ op ∈ ops, op.ofQuery = false) :
    SameQueries data l (ops.foldl Loop.runOp l) := by
  induction ops generalizing l with
  | nil => exact ⟨fun _ _ => rfl, rfl⟩
  | cons op ops ih =>
    have hfirst := sameQueries_runOp data l (hops op List.mem_cons_self)
    have hrest := ih (l.runOp op) fun op h => hops op (List.mem_cons_of_mem _ h)
    exact ⟨fun kind hkind => (hrest.marks kind hkind).trans (hfirst.marks kind hkind),
      hrest.queries.trans hfirst.queries⟩

/-- An iteration from a state that is not of the query string. -/
theorem sameQueries_run (data : Bytes) (ch : UInt8) (tail : List UInt8)
    (hstate : l.parser.state.inQuery = false) :
    SameQueries data l (l.run (iteration l.parser ch tail)) := by
  have h := sameQueries_foldl data l
    ((iteration_advances l.parser ch tail).quiet hstate)
  exact ⟨h.marks, h.queries⟩

/-! ## Up to the question mark -/

/-- Before the query string no query has been read and none has been begun. -/
structure BeforeQuery (data : Bytes) (l : Loop) : Prop where
  marks : ∀ kind, kind.ofQuery → l.marks kind = none
  queries : (l.request data).queries = fun _ => none

/-- This holds on where the query string is not read. -/
theorem BeforeQuery.advance (h : BeforeQuery data l) (hstate : l.parser.state.inQuery = false)
    {extra : Nat} : BeforeQuery data (l.advance ch tail extra) := by
  have hsame := sameQueries_run data ch tail hstate
  exact ⟨fun kind hkind => (hsame.marks kind hkind).trans (h.marks kind hkind),
    hsame.queries.trans h.queries⟩

/-- The transition fails, or goes on with the next byte in a state that has the property. -/
def Transition.Steps (P : State → Prop) (t : Transition) : Prop :=
  (∃ off, t.exit = .error off) ∨ t.exit = .next 0 ∧ P t.parser.state

/-- A failed transition. -/
theorem steps_fail {P : State → Prop} {parser : HttpParser} {e : HttpErrno} :
    (Transition.fail parser e ops).Steps P :=
  .inl ⟨0, rfl⟩

/-- `break`. -/
theorem steps_next {P : State → Prop} {parser : HttpParser} (h : P parser.state) :
    (Transition.next parser ops).Steps P :=
  .inr ⟨rfl, h⟩

/-- No method has a space. -/
theorem methodStrings_ne_space (method : HttpMethod) (index : Nat) :
    (bytes (methodStrings method)).getD index 0 ≠ ' ' := by
  have hmem : ∀ method, (' ' : UInt8) ∉ bytes (methodStrings method) := by
    intro method
    cases method <;> decide
  rw [List.getD_eq_getElem?_getD]
  cases hget : (bytes (methodStrings method))[index]? with
  | none => decide
  | some c =>
    rintro rfl
    exact hmem method (List.mem_of_getElem? hget)

/-- Up to the first space the method is read, perhaps behind line ends. -/
theorem dispatch_method {parser : HttpParser}
    (hs : parser.state = .startReq ∨ parser.state = .reqMethod) (hch : ch ≠ ' ') :
    (dispatch parser ch tail).Steps fun s => s = .startReq ∨ s = .reqMethod := by
  rcases hs with hs | hs
  · have hdispatch : dispatch parser ch tail = onStartReq parser ch := by rw [dispatch, hs]
    rw [hdispatch, onStartReq]
    simp only
    split_ifs
    · exact steps_next (.inl hs)
    · exact steps_fail
    · split
      · exact steps_fail
      · exact steps_next (.inr rfl)
  · have hdispatch : dispatch parser ch tail = onReqMethod parser ch := by rw [dispatch, hs]
    rw [hdispatch, onReqMethod]
    simp only [hch, decide_false, Bool.false_and, Bool.false_eq_true, if_false]
    -- The letter of the method that is expected, or one that makes it another method.
    split_ifs
    · exact steps_fail
    · exact steps_next (.inr hs)
    · split
      · exact steps_next (.inr hs)
      · exact steps_fail
    · exact steps_next (.inr hs)
    · exact steps_fail

/-- A space ends it. -/
theorem dispatch_method_space (parser : HttpParser)
    (hs : parser.state = .startReq ∨ parser.state = .reqMethod) :
    (dispatch parser ' ' tail).Steps (· = .reqSpacesBeforeUrl) := by
  rcases hs with hs | hs
  · have hdispatch : dispatch parser ' ' tail = onStartReq parser ' ' := by rw [dispatch, hs]
    rw [hdispatch]
    exact steps_fail
  · have hdispatch : dispatch parser ' ' tail = onReqMethod parser ' ' := by rw [dispatch, hs]
    have hspace := methodStrings_ne_space parser.method parser.index.toNat
    have hother : isAlpha ' ' = false ∧ (' ' : UInt8) ≠ '-' := by decide
    rw [hdispatch, onReqMethod]
    simp only [hspace.symm, hother, if_false, decide_false, Bool.false_and, Bool.false_eq_true]
    split_ifs
    · exact steps_fail
    · exact steps_next rfl
    · exact steps_fail

/-- Then there may be more of them. -/
theorem dispatch_spaces {parser : HttpParser} (hs : parser.state = .reqSpacesBeforeUrl) :
    (dispatch parser ' ' tail).Steps (· = .reqSpacesBeforeUrl) := by
  have hdispatch : dispatch parser ' ' tail = onReqSpacesBeforeUrl parser ' ' := by
    rw [dispatch, hs]
  rw [hdispatch]
  exact steps_next hs

/-- A step of the URL automaton. -/
theorem steps_stepUrl {P : State → Prop} {parser : HttpParser}
    (h : parseUrlChar parser.state ch ≠ .dead → P (parseUrlChar parser.state ch)) :
    (stepUrl parser ch ops).Steps P := by
  unfold stepUrl
  simp only
  split_ifs with hdead
  · exact steps_fail
  · exact steps_next (h hdead)

/-- The bytes of a path. -/
def isPathByte (ch : UInt8) : Bool := ch ≠ ' ' && ch ≠ CR && ch ≠ LF && ch ≠ '?' && ch ≠ '#'

/-- A case of the URL takes a byte by the URL automaton, unless it ends the URL. -/
theorem dispatch_url (parser : HttpParser) (hs : parser.state.inUrl)
    (hch : ch ≠ ' ' ∧ ch ≠ CR ∧ ch ≠ LF) {P : State → Prop}
    (hP : ∀ s, s.inUrl → parseUrlChar s ch ≠ .dead → P (parseUrlChar s ch))
    (hquery : ch = '?' → P .reqQueryStringStart) :
    (dispatch parser ch tail).Steps P := by
  have hstep : ∀ {parser' : HttpParser} {ops}, parser'.state.inUrl →
      (stepUrl parser' ch ops).Steps P := fun hs' => steps_stepUrl (hP _ hs')
  have hpath : (onReqPath parser ch).Steps P := by
    rw [onReqPath]
    simp only [hch, decide_false, Bool.or_false, Bool.false_eq_true, if_false]
    split_ifs with hmark
    · exact steps_next (hquery hmark)
    · exact hstep hs
  have hschema : (onReqSchema parser ch).Steps P := by
    rw [onReqSchema]
    simp only [hch, decide_false, Bool.or_false, Bool.false_eq_true, if_false]
    exact hstep hs
  have hspaces : parser.state = .reqSpacesBeforeUrl → (onReqSpacesBeforeUrl parser ch).Steps P := by
    intro hs'
    rw [onReqSpacesBeforeUrl]
    simp only [hch, if_false]
    split_ifs
    · exact hstep rfl
    · exact hstep hs
  -- Each state of the URL has one of the three cases.
  unfold dispatch
  cases hstate : parser.state <;> first
    | exact hpath
    | exact hschema
    | exact hspaces hstate
    | simp [hstate, State.inUrl] at hs

/-- A byte of the path stays in the URL. -/
theorem inUrl_parseUrlChar {s : State} (hs : s.inUrl) (hch : isPathByte ch)
    (h : parseUrlChar s ch ≠ .dead) : (parseUrlChar s ch).inUrl := by
  have hne : ch ≠ '?' ∧ ch ≠ '#' := by
    simp only [isPathByte, Bool.and_eq_true, decide_eq_true_eq] at hch
    exact ⟨hch.1.2, hch.2⟩
  rcases parseUrlChar_url hs h with ⟨hopen, -⟩ | ⟨-, hleft⟩
  · revert hopen
    cases parseUrlChar s ch <;> simp [openMark, resumeMark, State.inUrl]
  · rcases hleft with ⟨hash, -⟩ | ⟨hmark, -⟩
    · exact absurd hash hne.2
    · exact absurd hmark hne.1

/-- A question mark ends the URL. -/
theorem parseUrlChar_questionMark {s : State} (hs : s.inUrl) (h : parseUrlChar s '?' ≠ .dead) :
    parseUrlChar s '?' = .reqQueryStringStart := by
  revert hs h
  cases s <;> decide

/-- A complete request does not fail on the byte. -/
theorem BeforeQuery.step {P : State → Prop} (h : (mainLoop l₀ 0 data).completes size)
    (hheads : Heads l₀ data l (ch :: tail)) (hbefore : BeforeQuery data l)
    (hstate : l.parser.state.parsingHeader ∧ l.parser.state.inQuery = false)
    (hsteps : (dispatch (l.parser.addNread 1) ch tail).Steps P) :
    Heads l₀ data (l.advance ch tail 0) tail ∧ P (l.advance ch tail 0).parser.state ∧
      BeforeQuery data (l.advance ch tail 0) := by
  have hcompletes := hheads.mainLoop_eq ▸ h
  have hiter := iteration_of_completes hcompletes hstate.1
  rw [← hiter] at hsteps
  rcases hsteps with ⟨off, herror⟩ | ⟨hexit, hP⟩
  · rcases exit_of_completes hcompletes with ⟨extra, hexit⟩ | ⟨consumed, hexit⟩ <;>
      cases herror.symm.trans hexit
  · exact ⟨hheads.next hexit, hP, hbefore.advance hstate.2⟩

/-- Nor does it on any of a list. -/
theorem BeforeQuery.steps {P : State → Prop} {bs : Bytes}
    (h : (mainLoop l₀ 0 data).completes size)
    (hstate : ∀ s, P s → s.parsingHeader ∧ s.inQuery = false)
    (hsteps : ∀ ch ∈ bs, ∀ parser tail, P parser.state → (dispatch parser ch tail).Steps P)
    (hheads : Heads l₀ data l (bs ++ rest)) (hP : P l.parser.state)
    (hbefore : BeforeQuery data l) :
    ∃ l', Heads l₀ data l' rest ∧ P l'.parser.state ∧ BeforeQuery data l' := by
  induction bs generalizing l with
  | nil => exact ⟨l, hheads, hP, hbefore⟩
  | cons ch bs ih =>
    obtain ⟨hheads', hP', hbefore'⟩ := hbefore.step h hheads (hstate _ hP)
      (hsteps ch List.mem_cons_self (l.parser.addNread 1) _ hP)
    exact ih (fun ch hmem => hsteps ch (List.mem_cons_of_mem _ hmem)) hheads' hP' hbefore'

/-- The buffer begins with a method, perhaps behind line ends, spaces, and a target that has the
path and the query string. -/
def HasTarget (data path q : Bytes) : Prop :=
  ∃ method spaces rest,
    data = method ++ SPACE :: (spaces ++ (path ++ QUESTION :: (q ++ SPACE :: rest))) ∧
    (∀ ch ∈ method, ch ≠ ' ') ∧ (∀ ch ∈ spaces, ch = ' ') ∧ ∀ ch ∈ path, isPathByte ch

/-- A complete request is read up to the question mark. -/
theorem exists_heads_query {method spaces path : Bytes}
    (hdata : data = method ++ SPACE :: (spaces ++ (path ++ QUESTION :: rest)))
    (hmethod : ∀ ch ∈ method, ch ≠ ' ') (hspaces : ∀ ch ∈ spaces, ch = ' ')
    (hpath : ∀ ch ∈ path, isPathByte ch) (h : Complete data) :
    ∃ l, Heads (.enter (httpParserInit .request)) data l rest ∧
      l.parser.state = .reqQueryStringStart ∧ BeforeQuery data l := by
  have hcompletes := completes_of_complete h
  have hstart : BeforeQuery data (.enter (httpParserInit .request)) := ⟨fun _ _ => rfl, rfl⟩
  have hheads : Heads (.enter (httpParserInit .request)) data (.enter (httpParserInit .request))
      (method ++ SPACE :: (spaces ++ (path ++ QUESTION :: rest))) := hdata ▸ .start
  -- the method, and the first space
  obtain ⟨l₁, hheads₁, hs₁, hbefore₁⟩ := hstart.steps (P := fun s => s = .startReq ∨ s = .reqMethod)
    hcompletes (by rintro _ (rfl | rfl) <;> decide)
    (fun ch hmem parser tail hs => dispatch_method hs (hmethod ch hmem)) hheads (.inl rfl)
  obtain ⟨hheads₂, hs₂, hbefore₂⟩ := hbefore₁.step hcompletes hheads₁
    (by rcases hs₁ with hs | hs <;> rw [hs] <;> decide)
    (dispatch_method_space (l₁.parser.addNread 1) hs₁)
  -- more spaces, and the path
  obtain ⟨l₃, hheads₃, hs₃, hbefore₃⟩ := hbefore₂.steps (P := (· = .reqSpacesBeforeUrl))
    hcompletes (by rintro _ rfl; decide)
    (fun ch hmem parser tail hs => hspaces ch hmem ▸ dispatch_spaces hs) hheads₂ hs₂
  have hinUrl : ∀ s : State, s.inUrl → s.parsingHeader ∧ s.inQuery = false := by
    intro s
    cases s <;> simp [State.inUrl, State.parsingHeader, State.inQuery]
  have hurl : ∀ ch ∈ path, ∀ (parser : HttpParser) tail, parser.state.inUrl →
      (dispatch parser ch tail).Steps fun s => s.inUrl := by
    intro ch hmem parser tail hs
    have hch := hpath ch hmem
    have hne : ch ≠ ' ' ∧ ch ≠ CR ∧ ch ≠ LF ∧ ch ≠ '?' := by
      simp only [isPathByte, Bool.and_eq_true, decide_eq_true_eq] at hch
      exact ⟨hch.1.1.1.1, hch.1.1.1.2, hch.1.1.2, hch.1.2⟩
    exact dispatch_url parser hs ⟨hne.1, hne.2.1, hne.2.2.1⟩
      (fun s hs hdead => inUrl_parseUrlChar hs hch hdead) fun heq => absurd heq hne.2.2.2
  obtain ⟨l₄, hheads₄, hs₄, hbefore₄⟩ := hbefore₃.steps (P := fun s => s.inUrl)
    hcompletes hinUrl hurl hheads₃ (by rw [hs₃]; rfl)
  -- the question mark
  obtain ⟨hheads₅, hs₅, hbefore₅⟩ := hbefore₄.step (P := (· = .reqQueryStringStart))
    hcompletes hheads₄ (hinUrl _ hs₄)
    (dispatch_url (l₄.parser.addNread 1) hs₄ (by decide)
      (fun s hs => parseUrlChar_questionMark hs) fun _ => rfl)
  exact ⟨_, hheads₅, hs₅, hbefore₅⟩

/-! ## The query string -/

/-- The bytes of a query string: the unreserved characters, `%`, `&` and `=`. -/
def isQueryByte (ch : UInt8) : Bool := isAlphanum ch || ch ∈ bytes "-._~%&="

/-- All of them may be in a URL. -/
theorem isUrlChar_of_isQueryByte (h : isQueryByte ch) : isUrlChar ch := by
  have hall : ∀ n : Fin 256, isQueryByte (.ofFin n) → isUrlChar (.ofFin n) := by decide +kernel
  exact hall ch.toFin h

/-- None of them ends the target. -/
theorem ne_of_isUrlChar (h : isUrlChar ch) : ch ≠ ' ' ∧ ch ≠ CR ∧ ch ≠ LF ∧ ch ≠ '\t' ∧
    ch ≠ '\x0c' ∧ ch ≠ '#' := by
  refine ⟨?_, ?_, ?_, ?_, ?_, ?_⟩ <;> rintro rfl <;> exact absurd h (by decide)

/-- The bytes have been read up to `p` under the mark of the span, or there are none of them yet. -/
def SpanAt (data : Bytes) (l : Loop) (kind : SpanKind) (bs : Bytes) : Prop :=
  ∃ a, (l.marks kind = some a ∨ l.marks kind = none ∧ a = l.p) ∧ a + bs.length = l.p ∧
    data.drop a = bs ++ data.drop l.p

/-- The parser is in the name of a query, or in the value of the name. -/
def Reading (data : Bytes) (l : Loop) (name : Bytes) : Option Bytes → Prop
  | none =>
    (l.parser.state = .reqQueryStringStart ∨ l.parser.state = .reqQueryString) ∧
      SpanAt data l .queryField name ∧ l.marks .queryValue = none
  | some value =>
    (l.parser.state = .reqQueryValueStart ∨ l.parser.state = .reqQueryValue) ∧
      SpanAt data l .queryValue value ∧ l.marks .queryField = none ∧
      (l.request data).tempkey = name

/-- The states of the query string belong to the header. -/
theorem Reading.parsingHeader {name : Bytes} {value : Option Bytes}
    (h : Reading data l name value) : l.parser.state.parsingHeader := by
  cases value with
  | none => rcases h.1 with hs | hs <;> rw [hs] <;> rfl
  | some value => rcases h.1 with hs | hs <;> rw [hs] <;> rfl

/-- The mark is set at the first byte. -/
theorem SpanAt.runOp {bs : Bytes} (h : SpanAt data l kind bs) :
    ∃ a, l.runOp (.mark kind) = { l with marks := Function.update l.marks kind (some a) } ∧
      a + bs.length = l.p ∧ data.drop a = bs ++ data.drop l.p := by
  obtain ⟨a, hmark, hlength, hdrop⟩ := h
  refine ⟨a, ?_, hlength, hdrop⟩
  rcases hmark with hmark | ⟨hmark, rfl⟩
  · rw [Loop.runOp, if_pos (by rw [hmark]; rfl), ← hmark, Function.update_eq_self]
  · rw [Loop.runOp, if_neg (by simp [hmark])]

/-- A byte that belongs to the span. -/
theorem SpanAt.mark {bs : Bytes} (h : SpanAt data l kind bs) (hdrop : data.drop l.p = ch :: tail)
    (hops : (iteration l.parser ch tail).ops = [.mark kind]) :
    SpanAt data (l.advance ch tail 0) kind (bs ++ [ch]) ∧
      (∀ k, k ≠ kind → (l.advance ch tail 0).marks k = l.marks k) ∧
      (l.advance ch tail 0).request data = l.request data := by
  obtain ⟨a, hrun, hlength, hspan⟩ := h.runOp
  have hadvance : l.advance ch tail 0 = { l with
      parser := (iteration l.parser ch tail).parser, p := l.p + 1
      marks := Function.update l.marks kind (some a) } := by
    simp [Loop.advance, Loop.run, hops, hrun]
  have hdrop' : data.drop (l.p + 1) = tail := by
    rw [← List.drop_drop, hdrop]
    rfl
  rw [hadvance]
  refine ⟨⟨a, .inl (Function.update_self ..), ?_, ?_⟩, fun k hk => Function.update_of_ne hk .., rfl⟩
  · rw [List.length_append, ← Nat.add_assoc, hlength]
    rfl
  · rw [hspan, hdrop, hdrop', List.append_assoc, List.singleton_append]

/-- A byte that ends the span. -/
theorem SpanAt.close {bs : Bytes} (h : SpanAt data l kind bs) (hinstalled : kind.installed)
    (hops : (iteration l.parser ch tail).ops = [.mark kind, .callbackData kind 0]) :
    (∀ k, (l.advance ch tail 0).marks k = if k = kind then none else l.marks k) ∧
      (l.advance ch tail 0).request data = (l.request data).onData bs kind := by
  obtain ⟨a, hrun, hlength, hspan⟩ := h.runOp
  have hadvance : l.advance ch tail 0 = { l with
      parser := (iteration l.parser ch tail).parser, p := l.p + 1
      marks := Function.update (Function.update l.marks kind (some a)) kind none
      calls := l.calls ++ [.onData kind a (l.p - a)] } := by
    simp only [Loop.advance, Loop.run, hops, List.foldl_cons, List.foldl_nil, hrun]
    simp [Loop.runOp, Loop.callbackData, hinstalled]
  have hbytes : (data.drop a).take (l.p - a) = bs := by
    rw [hspan, show l.p - a = bs.length by omega, List.take_left]
  rw [hadvance]
  refine ⟨fun k => ?_, ?_⟩
  · split_ifs with hk
    · simp [hk]
    · simp [hk]
  · simp only [Loop.request, List.foldl_append, List.foldl_cons, List.foldl_nil, HttpRequest.call,
      hbytes]

/-! ### Its bytes -/

/-- A byte in the name of a query. -/
theorem dispatch_queryField (parser : HttpParser) (tail : List UInt8)
    (hs : parser.state = .reqQueryStringStart ∨ parser.state = .reqQueryString)
    (hch : isUrlChar ch) :
    dispatch parser ch tail =
      if ch = EQUALS then .next { parser with state := .reqQueryValueStart }
        [.mark .queryField, .callbackData .queryField 0]
      else .next { parser with state := .reqQueryString } [.mark .queryField] := by
  obtain ⟨hspace, hcr, hlf, htab, hff, hhash⟩ := ne_of_isUrlChar hch
  have hdispatch : dispatch parser ch tail = onReqQueryString parser ch := by
    rcases hs with hs | hs <;> rw [dispatch, hs]
  have hurl : parseUrlChar parser.state ch = .reqQueryString := by
    rcases hs with hs | hs <;> simp [parseUrlChar, hs, hspace, hcr, hlf, htab, hff, hch]
  rw [hdispatch, onReqQueryString, if_neg hspace, if_neg hhash, stepUrl, hurl]
  rfl

/-- A byte in the value of a query. -/
theorem dispatch_queryValue (parser : HttpParser) (tail : List UInt8)
    (hs : parser.state = .reqQueryValueStart ∨ parser.state = .reqQueryValue)
    (hch : isUrlChar ch) :
    dispatch parser ch tail =
      if ch = AMPERSAND then .next { parser with state := .reqQueryStringStart }
        [.mark .queryValue, .callbackData .queryValue 0]
      else .next { parser with state := .reqQueryValue } [.mark .queryValue] := by
  obtain ⟨hspace, hcr, hlf, htab, hff, hhash⟩ := ne_of_isUrlChar hch
  have hdispatch : dispatch parser ch tail = onReqQueryValue parser ch := by
    rcases hs with hs | hs <;> rw [dispatch, hs]
  rw [hdispatch, onReqQueryValue]
  simp only [if_neg hspace, if_neg hhash]
  by_cases hand : ch = AMPERSAND
  · rw [if_pos hand, if_pos hand]
  · have hurl : parseUrlChar parser.state ch = .reqQueryValue := by
      rcases hs with hs | hs <;>
        simp [parseUrlChar, isDelimiter, hs, hspace, hcr, hlf, htab, hff, hhash, hch, hand]
    rw [if_neg hand, if_neg hand, stepUrl, hurl]
    rfl

/-- The byte is taken: some pairs are complete, and the parser is in the query string still. -/
def ReadsOn (data : Bytes) (l : Loop) (ch : UInt8) (tail : List UInt8) (name : Bytes)
    (value : Option Bytes) : Prop :=
  (iteration l.parser ch tail).exit = .next 0 ∧
    ∃ name' value' pairs,
      (∀ q, readPairs name value (ch :: q) = pairs ++ readPairs name' value' q) ∧
      Reading data (l.advance ch tail 0) name' value' ∧
      ((l.advance ch tail 0).request data).queries = assign (l.request data).queries pairs

/-- A byte behind the beginning of a name. -/
theorem readsOn_name {name : Bytes} (h : Reading data l name none)
    (hdrop : data.drop l.p = ch :: tail) (hch : isUrlChar ch)
    (hiter : iteration l.parser ch tail = dispatch (l.parser.addNread 1) ch tail) :
    ReadsOn data l ch tail name none := by
  obtain ⟨hs, hspan, hvalue⟩ := h
  rw [dispatch_queryField (l.parser.addNread 1) tail hs hch] at hiter
  by_cases hequals : ch = EQUALS
  · -- An equals sign ends the name, and begins the value.
    rw [if_pos hequals] at hiter
    obtain ⟨hmarks, hrequest⟩ := hspan.close rfl (by rw [hiter]; rfl)
    refine ⟨by rw [hiter]; rfl, name, some [], [], fun q => ?_, ⟨.inl ?_, ?_, ?_, ?_⟩, ?_⟩
    · rw [readPairs, if_pos hequals, List.nil_append]
    · rw [Loop.advance, hiter]; rfl
    · exact ⟨_, .inr ⟨by simp [hmarks, hvalue], rfl⟩, rfl, rfl⟩
    · simp [hmarks]
    · rw [hrequest]; rfl
    · rw [hrequest]; rfl
  · -- Any other byte belongs to the name, an ampersand too.
    rw [if_neg hequals] at hiter
    obtain ⟨hspan', hmarks, hrequest⟩ := hspan.mark hdrop (by rw [hiter]; rfl)
    refine ⟨by rw [hiter]; rfl, name ++ [ch], none, [], fun q => ?_, ⟨.inr ?_, hspan', ?_⟩, ?_⟩
    · rw [readPairs, if_neg hequals, List.nil_append]
    · rw [Loop.advance, hiter]; rfl
    · rw [hmarks _ (by decide), hvalue]
    · rw [hrequest]; rfl

/-- A byte behind the beginning of a value. -/
theorem readsOn_value {name value : Bytes} (h : Reading data l name (some value))
    (hdrop : data.drop l.p = ch :: tail) (hch : isUrlChar ch)
    (hiter : iteration l.parser ch tail = dispatch (l.parser.addNread 1) ch tail) :
    ReadsOn data l ch tail name (some value) := by
  obtain ⟨hs, hspan, hfield, hkey⟩ := h
  rw [dispatch_queryValue (l.parser.addNread 1) tail hs hch] at hiter
  by_cases hand : ch = AMPERSAND
  · -- An ampersand ends the value, and begins another name.
    rw [if_pos hand] at hiter
    obtain ⟨hmarks, hrequest⟩ := hspan.close rfl (by rw [hiter]; rfl)
    refine ⟨by rw [hiter]; rfl, [], none, [(name, value)], fun q => ?_, ⟨.inl ?_, ?_, ?_⟩, ?_⟩
    · rw [readPairs, if_pos hand]; rfl
    · rw [Loop.advance, hiter]; rfl
    · exact ⟨_, .inr ⟨by simp [hmarks, hfield], rfl⟩, rfl, rfl⟩
    · simp [hmarks]
    · rw [hrequest, ← hkey]; rfl
  · rw [if_neg hand] at hiter
    obtain ⟨hspan', hmarks, hrequest⟩ := hspan.mark hdrop (by rw [hiter]; rfl)
    refine ⟨by rw [hiter]; rfl, name, some (value ++ [ch]), [], fun q => ?_,
      ⟨.inr ?_, hspan', ?_, ?_⟩, ?_⟩
    · rw [readPairs, if_neg hand, List.nil_append]
    · rw [Loop.advance, hiter]; rfl
    · rw [hmarks _ (by decide), hfield]
    · rw [hrequest, hkey]
    · rw [hrequest]; rfl

/-- The space behind the query string: a name alone is left under its mark. -/
theorem Reading.space {name : Bytes} {value : Option Bytes} (h : Reading data l name value)
    (hiter : iteration l.parser SPACE tail = dispatch (l.parser.addNread 1) SPACE tail) :
    (iteration l.parser SPACE tail).exit = .next 0 ∧
      (l.advance SPACE tail 0).parser.state = .reqHttpStart ∧
      (l.advance SPACE tail 0).marks .queryValue = none ∧
      ((l.advance SPACE tail 0).request data).queries =
        assign (l.request data).queries (readPairs name value []) := by
  cases value with
  | none =>
    -- A name alone makes no call.
    obtain ⟨hs, hspan, hvalue⟩ := h
    have hdispatch : dispatch (l.parser.addNread 1) SPACE tail =
        .next { l.parser.addNread 1 with state := .reqHttpStart } [.mark .queryField] := by
      rcases hs with hs | hs <;>
        simp only [dispatch, HttpParser.addNread, hs, onReqQueryString, if_true]
    rw [hdispatch] at hiter
    obtain ⟨a, hrun, -⟩ := hspan.runOp
    have hadvance : l.advance SPACE tail 0 = { l with
        parser := { l.parser.addNread 1 with state := .reqHttpStart }, p := l.p + 1
        marks := Function.update l.marks .queryField (some a) } := by
      simp only [Loop.advance, Loop.run, hiter, Transition.next, List.foldl_cons, List.foldl_nil,
        hrun]
    rw [hadvance, hiter]
    exact ⟨rfl, rfl, by simp [hvalue], rfl⟩
  | some value =>
    -- A value is passed on.
    obtain ⟨hs, hspan, -, hkey⟩ := h
    have hdispatch : dispatch (l.parser.addNread 1) SPACE tail =
        .next { l.parser.addNread 1 with state := .reqHttpStart }
          [.mark .queryValue, .callbackData .queryValue 0] := by
      rcases hs with hs | hs <;>
        simp only [dispatch, HttpParser.addNread, hs, onReqQueryValue, if_true]
    rw [hdispatch] at hiter
    obtain ⟨hmarks, hrequest⟩ := hspan.close rfl (by rw [hiter]; rfl)
    refine ⟨by rw [hiter]; rfl, by rw [Loop.advance, hiter]; rfl, by simp [hmarks], ?_⟩
    rw [hrequest, ← hkey]
    rfl

/-- The whole query string, and the space behind it. -/
theorem exists_heads_space {parser : HttpParser} {name : Bytes} {value : Option Bytes}
    (h : (mainLoop (.enter parser) 0 data).completes size)
    (hheads : Heads (.enter parser) data l (q ++ SPACE :: rest)) (hq : ∀ ch ∈ q, isUrlChar ch)
    (hreading : Reading data l name value) :
    ∃ l', Heads (.enter parser) data l' rest ∧ l'.parser.state = .reqHttpStart ∧
      l'.marks .queryValue = none ∧
      (l'.request data).queries = assign (l.request data).queries (readPairs name value q) := by
  induction q generalizing l name value with
  | nil =>
    have hiter := iteration_of_completes (hheads.mainLoop_eq ▸ h) hreading.parsingHeader
    obtain ⟨hexit, hspace⟩ := hreading.space hiter
    exact ⟨_, hheads.next hexit, hspace⟩
  | cons ch q ih =>
    rw [List.cons_append] at hheads
    have hiter := iteration_of_completes (hheads.mainLoop_eq ▸ h) hreading.parsingHeader
    have hreads : ReadsOn data l ch (q ++ SPACE :: rest) name value := by
      cases value with
      | none => exact readsOn_name hreading (drop_of_heads hheads) (hq ch List.mem_cons_self) hiter
      | some value =>
        exact readsOn_value hreading (drop_of_heads hheads) (hq ch List.mem_cons_self) hiter
    obtain ⟨hexit, name', value', pairs, hpairs, hreading', hqueries⟩ := hreads
    obtain ⟨l', hheads', hs, hmark, hqueries'⟩ := ih (hheads.next hexit)
      (fun ch hmem => hq ch (List.mem_cons_of_mem _ hmem)) hreading'
    refine ⟨l', hheads', hs, hmark, ?_⟩
    rw [hqueries', hqueries, hpairs, assign_append]

/-! ## Behind the target -/

/-- The number of messages that have been completed. -/
def Loop.completed (l : Loop) : Nat := l.calls.count .onMessageComplete

/-- The queries are final. -/
structure Settled (data : Bytes) (queries : Bytes → Option Bytes) (l : Loop) : Prop where
  mark : l.marks .queryValue = none
  queries_eq : (l.request data).queries = queries

/-- Behind the target of the first message, and behind its end, the queries are final. Behind that
there is another message. -/
def FirstMessage (data : Bytes) (queries : Bytes → Option Bytes) (l : Loop) : Prop :=
  l.parser.state.phase = 2 ∧ Settled data queries l ∨
    l.parser.state.phase = 0 ∧ l.completed = 1 ∧ Settled data queries l ∨
    l.parser.state.phase ≠ 0 ∧ 1 ≤ l.completed ∨ 2 ≤ l.completed

/-- One macro completes a message, or none. -/
theorem completed_runOp (op : Op) (l : Loop) :
    (l.runOp op).completed = l.completed + [op].count .messageComplete := by
  cases op with
  | mark k =>
    rw [Loop.runOp]
    split_ifs <;> rfl
  | callbackData k stop =>
    rw [Loop.runOp, Loop.callbackData]
    split
    · rfl
    · by_cases hk : k.installed <;> simp [Loop.completed, hk]
  | messageBegin | headersComplete method | messageComplete => simp [Loop.runOp, Loop.completed]

/-- An iteration completes as many messages as its macros say. -/
theorem completed_run (l : Loop) (t : Transition) :
    (l.run t).completed = l.completed + t.ops.count .messageComplete := by
  have hops : ∀ (ops : List Op) (l : Loop), (ops.foldl Loop.runOp l).completed =
      l.completed + ops.count .messageComplete := by
    intro ops
    induction ops with
    | nil => exact fun l => rfl
    | cons op ops ih =>
      intro l
      rw [List.foldl_cons, ih, completed_runOp, Nat.add_assoc, ← List.count_append,
        List.singleton_append]
  exact hops t.ops l

/-- Outside of the query string, what is final stays so. -/
theorem Settled.run {queries : Bytes → Option Bytes} (h : Settled data queries l)
    (hstate : l.parser.state.inQuery = false) :
    Settled data queries (l.run (iteration l.parser ch tail)) := by
  have hsame := sameQueries_run data ch tail hstate
  exact ⟨(hsame.marks _ rfl).trans h.mark, hsame.queries.trans h.queries_eq⟩

/-- The query string is in the middle of a message. -/
theorem inQuery_of_phase {s : State} (h : s.phase ≠ 1) : s.inQuery = false := by
  revert h
  cases s <;> simp [State.phase, State.inQuery]

/-- An iteration goes on in the first message, or behind it. -/
theorem FirstMessage.advance {queries : Bytes → Option Bytes} {extra : Nat}
    (h : FirstMessage data queries l) (hexit : (iteration l.parser ch tail).exit = .next extra) :
    FirstMessage data queries (l.advance ch tail extra) := by
  have hcompleted : (l.advance ch tail extra).completed =
      l.completed + (iteration l.parser ch tail).ops.count .messageComplete := completed_run l _
  have hsettled : l.parser.state.phase ≠ 1 → Settled data queries l →
      Settled data queries (l.advance ch tail extra) := fun hphase hs =>
    ⟨(hs.run (inQuery_of_phase hphase)).mark, (hs.run (inQuery_of_phase hphase)).queries_eq⟩
  have hle := (l.advance ch tail extra).parser.state.phase_le
  have hparser : (l.advance ch tail extra).parser = (iteration l.parser ch tail).parser := rfl
  have hnext := (iteration_advances l.parser ch tail).next extra hexit
  rw [← hparser] at hnext
  rcases h with ⟨hphase, hs⟩ | ⟨hphase, hone, hs⟩ | ⟨hphase, hone⟩ | htwo
  · -- Behind the target: the message may end.
    have hs' := hsettled (by omega) hs
    rcases hnext with ⟨hcount, hforth⟩ | ⟨hcount, hend⟩
    · exact .inl ⟨by omega, hs'⟩
    · rcases Nat.eq_zero_or_pos l.completed with hzero | hpos
      · exact .inr (.inl ⟨hend, by omega, hs'⟩)
      · exact .inr (.inr (.inr (by omega)))
  · -- Behind its end: another message may begin.
    have hs' := hsettled (by omega) hs
    rcases hnext with ⟨hcount, hforth⟩ | ⟨hcount, hend⟩
    · rcases eq_or_ne (l.advance ch tail extra).parser.state.phase 0 with hzero | hne
      · exact .inr (.inl ⟨hzero, by omega, hs'⟩)
      · exact .inr (.inr (.inl ⟨hne, by omega⟩))
    · exact .inr (.inr (.inr (by omega)))
  · rcases hnext with ⟨hcount, hforth⟩ | ⟨hcount, hend⟩
    · exact .inr (.inr (.inl ⟨by omega, by omega⟩))
    · exact .inr (.inr (.inr (by omega)))
  · exact .inr (.inr (.inr (by omega)))

/-- Where the buffer has been used up, the request has the final queries. -/
theorem FirstMessage.flush {parser : HttpParser} {queries : Bytes → Option Bytes}
    (h : FirstMessage data queries l) (hheads : Heads (.enter parser) data l [])
    (hone : l.completed = 1) (hstate : l.parser.state = .startReq ∨ l.parser.state = .dead) :
    (l.flush.request data).queries = queries := by
  have hphase : l.parser.state.phase = 0 := by
    rcases hstate with hs | hs <;> rw [hs] <;> rfl
  have hopen : openMark l.parser.state = none := by
    rcases hstate with hs | hs <;> rw [hs] <;> rfl
  have hsettled : Settled data queries l := by
    rcases h with ⟨hbehind, -⟩ | ⟨-, -, hs⟩ | ⟨hne, -⟩ | htwo
    · omega
    · exact hs
    · exact absurd hphase hne
    · omega
  -- What is left over is a URL or the name of a query.
  have hcalls := calls_flush fun kind => (closesMarks_of_heads hheads).eq_none hopen
  rw [← hsettled.queries_eq, Loop.request, Loop.request, hcalls, List.foldl_append]
  cases l.marks .url <;> cases l.marks .queryField <;> rfl

/-- Where the loop has been left, it has them too. -/
theorem FirstMessage.returned {queries : Bytes → Option Bytes} (h : FirstMessage data queries l)
    {consumed : Nat} (hexit : (iteration l.parser ch tail).exit = .ret consumed)
    (hone : (l.run (iteration l.parser ch tail)).completed = 1) :
    ((l.run (iteration l.parser ch tail)).request data).queries = queries := by
  have hret := (iteration_advances l.parser ch tail).ret consumed hexit
  rw [completed_run] at hone
  rcases h with ⟨hphase, hs⟩ | ⟨-, hcompleted, -⟩ | ⟨-, hcompleted⟩ | hcompleted
  · exact (hs.run (inQuery_of_phase (by omega))).queries_eq
  all_goals omega

/-- The queries of a complete request are the pairs that are read from its query string. -/
theorem queries_append {path : Bytes} (h : Complete data) (htarget : HasTarget data path q)
    (hq : ∀ ch ∈ q, isUrlChar ch) :
    (HttpRequest.fresh.append data).map HttpRequest.queries =
      some (assign (fun _ => none) (readPairs [] none q)) := by
  obtain ⟨method, spaces, rest, hdata, hmethod, hspaces, hpath⟩ := htarget
  have hcompletes := completes_of_complete h
  obtain ⟨l₁, hheads₁, hs₁, hbefore⟩ := exists_heads_query hdata hmethod hspaces hpath h
  -- At the question mark no name has begun.
  have hreading : Reading data l₁ [] none :=
    ⟨.inl hs₁, ⟨l₁.p, .inr ⟨hbefore.marks _ rfl, rfl⟩, rfl, rfl⟩, hbefore.marks _ rfl⟩
  obtain ⟨l₂, hheads₂, hs₂, hmark, hqueries⟩ := exists_heads_space hcompletes hheads₁ hq hreading
  rw [hbefore.queries] at hqueries
  have hfirst : FirstMessage data (assign (fun _ => none) (readPairs [] none q)) l₂ :=
    .inl ⟨by rw [hs₂]; rfl, hmark, hqueries⟩
  have hrun : ∀ {l rest'}, Heads l₂ rest l rest' →
      FirstMessage data (assign (fun _ => none) (readPairs [] none q)) l := fun hheads =>
    hheads.invariant (P := fun l _ => FirstMessage data _ l)
      (fun _ _ _ _ hl hexit => hl.advance hexit) hfirst
  rw [append_fresh (ne_nil_of_complete h)]
  -- How the run ends.
  cases hloop : mainLoop (.enter (httpParserInit .request)) 0 data with
  | abort => simp [hloop, Outcome.completes] at hcompletes
  | done l =>
    simp only [hloop, Outcome.completes, Bool.and_eq_true, Bool.or_eq_true,
      decide_eq_true_eq] at hcompletes
    have hheads := heads_of_done (hheads₂.mainLoop_eq.symm.trans hloop)
    rw [Outcome.finish, if_pos hcompletes.1.1]
    exact congrArg some
      ((hrun hheads).flush (hheads₂.trans hheads) hcompletes.1.2 hcompletes.2)
  | returned l n =>
    simp only [hloop, Outcome.completes, Bool.and_eq_true, decide_eq_true_eq] at hcompletes
    obtain ⟨l₃, ch, tail, hheads, rfl, hexit⟩ :=
      exists_heads_of_returned (hheads₂.mainLoop_eq.symm.trans hloop)
    rcases hexit with ⟨off, hexit, -⟩ | ⟨consumed, hexit, -⟩
    · exact absurd hcompletes.1.1 ((iteration_advances _ ch tail).error off hexit)
    · exact congrArg some ((hrun hheads).returned hexit hcompletes.1.2)

/-! ## The queries and what the query string says -/

/-- The queries of a complete request are what the query string of its target says, if this is
readable, and only then. -/
theorem queries_eq_iff_readable {path : Bytes} (h : Complete data)
    (htarget : HasTarget data path q) (hq : ∀ ch ∈ q, isQueryByte ch) :
    (HttpRequest.fresh.append data).map HttpRequest.queries = some (decodeQuery q) ↔
      Readable q := by
  rw [queries_append h htarget fun ch hmem => isUrlChar_of_isQueryByte (hq ch hmem),
    Option.some.injEq]
  exact assign_readPairs_iff q

/-- Two values, of which the second one is empty. -/
theorem queries_two_values :
    (HttpRequest.fresh.append (bytes "GET /a?x=1&y= HTTP/1.1\r\n\r\n")).map HttpRequest.queries =
      some (decodeQuery (bytes "x=1&y=")) := by
  have htarget : HasTarget (bytes "GET /a?x=1&y= HTTP/1.1\r\n\r\n") (bytes "/a")
      (bytes "x=1&y=") := ⟨bytes "GET", [], bytes "HTTP/1.1\r\n\r\n", by decide +kernel⟩
  refine (queries_eq_iff_readable ?_ htarget ?_).mpr ?_
  all_goals decide +kernel

/-- A name alone is not read. -/
theorem not_queries_eq_of_bare_name : ¬ ∀ data path q, Complete data → HasTarget data path q →
    (∀ ch ∈ q, isQueryByte ch) →
    (HttpRequest.fresh.append data).map HttpRequest.queries = some (decodeQuery q) := by
  intro hall
  have htarget : HasTarget (bytes "GET /a?x HTTP/1.1\r\n\r\n") (bytes "/a") (bytes "x") :=
    ⟨bytes "GET", [], bytes "HTTP/1.1\r\n\r\n", by decide +kernel⟩
  have hqueries := hall _ _ _ (by decide +kernel) htarget (by decide +kernel)
  -- The query string says that the value is empty.
  have hvalue := congrArg (Option.map fun queries => queries (bytes "x")) hqueries
  rw [Option.map_map] at hvalue
  exact absurd hvalue (by decide +kernel)

end MosqCluster.Http
