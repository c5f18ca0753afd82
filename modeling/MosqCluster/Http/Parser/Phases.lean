import MosqCluster.Http.Parser.Marks

/-!
# The phases of a message

A message is read in one direction: the parser waits for it, reads it up to the end of the request
target, and then what is behind the target. It comes back only at the end of a message. Queries are
read in the four states of the query string and in no others.

## Main definitions

* `State.phase`: how far into a message the parser is;
* `Advances`: what a transition does to the phase.

## Main results

* `iteration_advances`: every iteration of the main loop goes on in the message or ends it.
-/

namespace MosqCluster.Http

/-- How far into a message the parser is: between two messages, before the end of the request
target, or behind it. -/
def State.phase : State → Nat
  | .dead | .startReqOrRes | .startRes | .startReq => 0
  | .resOrRespH | .reqMethod | .reqSpacesBeforeUrl | .reqSchema | .reqSchemaSlash
  | .reqSchemaSlashSlash | .reqServerStart | .reqServer | .reqServerWithAt | .reqPath
  | .reqQueryStringStart | .reqQueryString | .reqQueryValueStart | .reqQueryValue
  | .reqFragmentStart | .reqFragment => 1
  | _ => 2

/-- The states of the query string. -/
def State.inQuery : State → Bool
  | .reqQueryStringStart | .reqQueryString | .reqQueryValueStart | .reqQueryValue => true
  | _ => false

/-- The spans of a query string. -/
def SpanKind.ofQuery : SpanKind → Bool
  | .queryField | .queryValue => true
  | _ => false

/-- The macro is about a span of a query string. -/
def Op.ofQuery : Op → Bool
  | .mark kind | .callbackData kind _ => kind.ofQuery
  | _ => false

/-- What a transition from the state `s` does to the phase. -/
structure Advances (s : State) (t : Transition) : Prop where
  /-- Within a message the phase does not go back, and at its end the next message is waited
  for. -/
  next : ∀ extra, t.exit = .next extra →
    t.ops.count .messageComplete = 0 ∧ s.phase ≤ t.parser.state.phase ∨
      t.ops.count .messageComplete = 1 ∧ t.parser.state.phase = 0
  /-- The loop is left at the end of a message. -/
  ret : ∀ consumed, t.exit = .ret consumed → t.ops.count .messageComplete = 1
  /-- A failure sets the error. -/
  error : ∀ off, t.exit = .error off → t.parser.httpErrno ≠ .OK
  /-- Only the states of the query string have its marks and callbacks. -/
  quiet : s.inQuery = false → ∀ op ∈ t.ops, op.ofQuery = false

variable {s : State} {parser : HttpParser} {ch : UInt8} {tail : List UInt8} {ops : List Op}
  {t : Transition}

/-! ## Transitions in general -/

/-- No state is further than behind the target. -/
theorem State.phase_le (s : State) : s.phase ≤ 2 := by
  cases s <;> decide

/-- A macro that does not end a message and, outside of the query string, is not about it. -/
def Op.Plain (s : State) (op : Op) : Prop :=
  op ≠ .messageComplete ∧ (s.inQuery = false → op.ofQuery = false)

/-- A transition that does not end the message. -/
theorem Advances.within (hops : ∀ op ∈ t.ops, op.Plain s)
    (hnext : ∀ extra, t.exit = .next extra → s.phase ≤ t.parser.state.phase)
    (hret : ∀ consumed, t.exit ≠ .ret consumed)
    (herror : ∀ off, t.exit = .error off → t.parser.httpErrno ≠ .OK) : Advances s t where
  next extra hexit :=
    .inl ⟨List.count_eq_zero.mpr fun hmem => (hops _ hmem).1 rfl, hnext extra hexit⟩
  ret consumed hexit := absurd hexit (hret consumed)
  error := herror
  quiet hs op hmem := (hops op hmem).2 hs

/-- A transition that fails some bytes further. -/
theorem Advances.failed {e : HttpErrno} {off : Nat} (he : e ≠ .OK)
    (hops : ∀ op ∈ ops, op.Plain s) :
    Advances s ⟨{ parser with httpErrno := e }, ops, .error off⟩ :=
  .within hops (by simp) (by simp) fun _ _ => he

/-- A failed transition. -/
theorem Advances.fail {e : HttpErrno} (he : e ≠ .OK) (hops : ∀ op ∈ ops, op.Plain s) :
    Advances s (.fail parser e ops) :=
  .failed he hops

/-- A failed assertion. -/
theorem Advances.abort : Advances s (.abort parser) :=
  .within (by simp [Transition.abort]) (by simp [Transition.abort]) (by simp [Transition.abort])
    (by simp [Transition.abort])

/-- A transition that goes on in the message. -/
theorem Advances.goes {extra : Nat} (h : s.phase ≤ parser.state.phase)
    (hops : ∀ op ∈ ops, op.Plain s) : Advances s ⟨parser, ops, .next extra⟩ :=
  .within hops (fun _ _ => h) (by simp) (by simp)

/-- A transition that goes on behind the target. -/
theorem Advances.behind {extra : Nat} (h : parser.state.phase = 2) (hops : ∀ op ∈ ops, op.Plain s) :
    Advances s ⟨parser, ops, .next extra⟩ :=
  .goes (h ▸ s.phase_le) hops

/-- A transition that ends the message. -/
theorem Advances.complete {exit : Exit} (h : parser.state.phase = 0)
    (hexit : ∀ off, exit ≠ .error off) : Advances s ⟨parser, [.messageComplete], exit⟩ where
  next _ _ := .inr ⟨rfl, h⟩
  ret _ _ := rfl
  error off h := absurd h (hexit off)
  quiet _ := by simp [Op.ofQuery]

/-- Other macros may come before. -/
theorem Advances.reexecute (h : Advances s t) (hops : ∀ op ∈ ops, op.Plain s) :
    Advances s (t.reexecute ops) := by
  have hcount : (ops ++ t.ops).count .messageComplete = t.ops.count .messageComplete := by
    rw [List.count_append, List.count_eq_zero.mpr fun hmem => (hops _ hmem).1 rfl, Nat.zero_add]
  refine ⟨fun extra hexit => ?_, fun consumed hexit => ?_, h.error, fun hs op hmem => ?_⟩
  · exact hcount.symm ▸ h.next extra hexit
  · exact hcount.trans (h.ret consumed hexit)
  · rcases List.mem_append.mp hmem with hmem | hmem
    · exact (hops op hmem).2 hs
    · exact h.quiet hs op hmem

/-- A `STRICT_CHECK` fails or goes on. -/
theorem Advances.strictCheck {cond : Bool} (h : Advances s t) :
    Advances s (.strictCheck cond parser t) := by
  unfold Transition.strictCheck
  split_ifs
  · exact .fail (by decide) (by simp)
  · exact h

/-! ## The start of a message -/

/-- Case `s_start_req`. -/
theorem onStartReq_advances (hs : s.phase = 0) : Advances s (onStartReq parser ch) := by
  have hgoes : ∀ {parser : HttpParser}, s.phase ≤ parser.state.phase := hs ▸ Nat.zero_le _
  unfold onStartReq
  simp only
  split_ifs
  · exact .goes hgoes (by simp)
  · exact .fail (by decide) (by simp)
  · split
    · exact .fail (by decide) (by simp)
    · exact .goes hgoes (by simp [Op.Plain, Op.ofQuery])

/-- Case `s_start_req_or_res`. -/
theorem onStartReqOrRes_advances (hs : s.phase = 0) :
    Advances s (onStartReqOrRes parser ch) := by
  have hgoes : ∀ {parser : HttpParser}, s.phase ≤ parser.state.phase := hs ▸ Nat.zero_le _
  unfold onStartReqOrRes
  simp only
  split_ifs
  · exact .goes hgoes (by simp)
  · exact .goes hgoes (by simp [Op.Plain, Op.ofQuery])
  · exact onStartReq_advances hs

/-- Case `s_start_res`. -/
theorem onStartRes_advances (hs : s.phase = 0) : Advances s (onStartRes parser ch) := by
  have hgoes : ∀ {parser : HttpParser}, s.phase ≤ parser.state.phase := hs ▸ Nat.zero_le _
  unfold onStartRes
  simp only
  split_ifs
  · exact .goes hgoes (by simp [Op.Plain, Op.ofQuery])
  · exact .goes hgoes (by simp [Op.Plain, Op.ofQuery])
  · exact .fail (by decide) (by simp)

/-- Case `s_res_or_resp_H`. -/
theorem onResOrRespH_advances (hs : s.phase ≤ 1) : Advances s (onResOrRespH parser ch) := by
  unfold onResOrRespH
  split_ifs
  · exact .behind rfl (by simp)
  · exact .fail (by decide) (by simp)
  · exact .goes hs (by simp)

/-- Case `s_req_method`. -/
theorem onReqMethod_advances (hs : s.phase ≤ 1) (hstate : parser.state.phase = 1) :
    Advances s (onReqMethod parser ch) := by
  have hgoes : s.phase ≤ parser.state.phase := hstate ▸ hs
  unfold onReqMethod
  simp only
  split_ifs
  · exact .fail (by decide) (by simp)
  · exact .goes hs (by simp)
  · exact .goes hgoes (by simp)
  · split
    · exact .goes hgoes (by simp)
    · exact .fail (by decide) (by simp)
  · exact .goes hgoes (by simp)
  · exact .fail (by decide) (by simp)

/-! ## The request target -/

/-- The URL automaton does not leave the target. -/
theorem phase_parseUrlChar (h : parseUrlChar s ch ≠ .dead) : (parseUrlChar s ch).phase = 1 := by
  have hserver : parseServerChar ch ≠ .dead → (parseServerChar ch).phase = 1 := by
    unfold parseServerChar
    split_ifs <;> simp [State.phase]
  revert h
  unfold parseUrlChar
  cases s <;> simp only [] <;> split_ifs <;> first
    | exact hserver
    | exact fun _ => rfl
    | exact fun h => absurd rfl h

/-- A step of the URL automaton. -/
theorem stepUrl_advances (hs : s.phase ≤ 1) (hops : ∀ op ∈ ops, op.Plain s) :
    Advances s (stepUrl parser ch ops) := by
  unfold stepUrl
  simp only
  split_ifs with hdead
  · exact .fail (by decide) hops
  · exact .goes (hs.trans (phase_parseUrlChar hdead).ge) hops

/-- Case `s_req_spaces_before_url`. -/
theorem onReqSpacesBeforeUrl_advances (hs : s.phase ≤ 1) (hstate : parser.state.phase = 1) :
    Advances s (onReqSpacesBeforeUrl parser ch) := by
  unfold onReqSpacesBeforeUrl
  simp only
  split_ifs
  · exact .goes (hstate ▸ hs) (by simp)
  all_goals exact stepUrl_advances hs (by simp [Op.Plain, Op.ofQuery, SpanKind.ofQuery])

/-- Cases `s_req_schema`, `s_req_schema_slash`, `s_req_schema_slash_slash` and
`s_req_server_start`. -/
theorem onReqSchema_advances (hs : s.phase ≤ 1) : Advances s (onReqSchema parser ch) := by
  unfold onReqSchema
  split_ifs
  · exact .fail (by decide) (by simp)
  · exact stepUrl_advances hs (by simp)

/-- Cases `s_req_server`, `s_req_server_with_at` and `s_req_path`. -/
theorem onReqPath_advances (hs : s.phase ≤ 1) : Advances s (onReqPath parser ch) := by
  have hops : ∀ op ∈ [Op.callbackData .url 0], op.Plain s := by
    simp [Op.Plain, Op.ofQuery, SpanKind.ofQuery]
  unfold onReqPath
  simp only
  split_ifs
  · exact .behind rfl hops
  · exact .behind rfl hops
  · exact .behind rfl hops
  · exact .goes hs hops
  · exact stepUrl_advances hs (by simp)

/-- Cases `s_req_query_string_start` and `s_req_query_string`. -/
theorem onReqQueryString_advances (hs : s.phase ≤ 1) (hquery : s.inQuery) :
    Advances s (onReqQueryString parser ch) := by
  unfold onReqQueryString
  split_ifs
  · exact .behind rfl (by simp [Op.Plain, hquery])
  · exact .goes hs (by simp [Op.Plain, hquery])
  · exact .goes hs (by simp [Op.Plain, hquery])
  · exact stepUrl_advances hs (by simp [Op.Plain, hquery])

/-- Cases `s_req_query_value_start` and `s_req_query_value`. -/
theorem onReqQueryValue_advances (hs : s.phase ≤ 1) (hquery : s.inQuery) :
    Advances s (onReqQueryValue parser ch) := by
  unfold onReqQueryValue
  simp only
  split_ifs
  · exact .behind rfl (by simp [Op.Plain, hquery])
  · exact .goes hs (by simp [Op.Plain, hquery])
  · exact .goes hs (by simp [Op.Plain, hquery])
  · exact stepUrl_advances hs (by simp [Op.Plain, hquery])

/-- Cases `s_req_fragment_start` and `s_req_fragment`. -/
theorem onReqFragment_advances (hs : s.phase ≤ 1) : Advances s (onReqFragment parser ch) := by
  unfold onReqFragment
  split_ifs
  · exact .behind rfl (by simp [Op.Plain, Op.ofQuery, SpanKind.ofQuery])
  · exact stepUrl_advances hs (by simp [Op.Plain, Op.ofQuery, SpanKind.ofQuery])

/-! ## Start lines -/

/-- The cases that expect one character. -/
theorem expect_advances {c : UInt8} {s' : State} (hs' : s'.phase = 2) :
    Advances s (expect parser ch c s') :=
  .strictCheck (.behind hs' (by simp))

/-- The first digit of a version. -/
theorem onFirstHttpMajor_advances {least : UInt8} {s' : State} (hs' : s'.phase = 2) :
    Advances s (onFirstHttpMajor least parser ch s') := by
  unfold onFirstHttpMajor
  split_ifs
  · exact .fail (by decide) (by simp)
  · exact .behind hs' (by simp)

/-- The first digit of a minor version. -/
theorem onFirstHttpMinor_advances {s' : State} (hs' : s'.phase = 2) :
    Advances s (onFirstHttpMinor parser ch s') := by
  unfold onFirstHttpMinor
  split_ifs
  · exact .fail (by decide) (by simp)
  · exact .behind hs' (by simp)

/-- The major version, or the dot after it. -/
theorem onHttpMajor_advances {s' : State} (hs' : s'.phase = 2) (hs : s.phase ≤ parser.state.phase) :
    Advances s (onHttpMajor parser ch s') := by
  unfold onHttpMajor
  simp only
  split_ifs
  · exact .behind hs' (by simp)
  · exact .fail (by decide) (by simp)
  · exact .fail (by decide) (by simp)
  · exact .goes hs (by simp)

/-- One more digit of the minor version. -/
theorem minorDigit_advances (hs : s.phase ≤ parser.state.phase) :
    Advances s (minorDigit parser ch) := by
  unfold minorDigit
  simp only
  split_ifs
  · exact .fail (by decide) (by simp)
  · exact .fail (by decide) (by simp)
  · exact .goes hs (by simp)

/-- Case `s_res_http_minor`. -/
theorem onResHttpMinor_advances (hs : s.phase ≤ parser.state.phase) :
    Advances s (onResHttpMinor parser ch) := by
  unfold onResHttpMinor
  split_ifs
  · exact .behind rfl (by simp)
  · exact minorDigit_advances hs

/-- Case `s_req_http_minor`. -/
theorem onReqHttpMinor_advances (hs : s.phase ≤ parser.state.phase) :
    Advances s (onReqHttpMinor parser ch) := by
  unfold onReqHttpMinor
  split_ifs
  · exact .behind rfl (by simp)
  · exact .behind rfl (by simp)
  · exact minorDigit_advances hs

/-- Case `s_res_first_status_code`. -/
theorem onResFirstStatusCode_advances (hs : s.phase ≤ parser.state.phase) :
    Advances s (onResFirstStatusCode parser ch) := by
  unfold onResFirstStatusCode
  split_ifs
  · exact .goes hs (by simp)
  · exact .fail (by decide) (by simp)
  · exact .behind rfl (by simp)

/-- Case `s_res_status_code`. -/
theorem onResStatusCode_advances (hs : s.phase ≤ parser.state.phase) :
    Advances s (onResStatusCode parser ch) := by
  unfold onResStatusCode
  simp only
  split_ifs
  · exact .behind rfl (by simp)
  · exact .behind rfl (by simp)
  · exact .behind rfl (by simp)
  · exact .fail (by decide) (by simp)
  · exact .fail (by decide) (by simp)
  · exact .goes hs (by simp)

/-- Cases `s_res_status_start` and `s_res_status`. -/
theorem onResStatusStart_advances : Advances s (onResStatusStart parser ch) := by
  unfold onResStatusStart
  split_ifs
  · exact .behind rfl (by simp)
  · exact .behind rfl (by simp)
  · exact .behind rfl (by simp [Op.Plain, Op.ofQuery, SpanKind.ofQuery])

/-- Case `s_res_status`. -/
theorem onResStatus_advances (hs : s.phase ≤ parser.state.phase) :
    Advances s (onResStatus parser ch) := by
  unfold onResStatus
  split_ifs
  · exact .behind rfl (by simp [Op.Plain, Op.ofQuery, SpanKind.ofQuery])
  · exact .behind rfl (by simp [Op.Plain, Op.ofQuery, SpanKind.ofQuery])
  · exact .goes hs (by simp)

/-- Case `s_req_http_start`. -/
theorem onReqHttpStart_advances (hs : s.phase ≤ parser.state.phase) :
    Advances s (onReqHttpStart parser ch) := by
  unfold onReqHttpStart
  split_ifs
  · exact .behind rfl (by simp)
  · exact .goes hs (by simp)
  · exact .fail (by decide) (by simp)

/-- Case `s_req_line_almost_done`. -/
theorem onReqLineAlmostDone_advances : Advances s (onReqLineAlmostDone parser ch) := by
  unfold onReqLineAlmostDone
  split_ifs
  · exact .fail (by decide) (by simp)
  · exact .behind rfl (by simp)

/-! ## The end of a message -/

/-- A new message is waited for. -/
theorem phase_newMessage : (newMessage parser).phase = 0 := by
  unfold newMessage startState
  split_ifs <;> rfl

/-- Case `s_message_done`. -/
theorem onMessageDone_advances {extra : Nat} : Advances s (onMessageDone parser extra) := by
  unfold onMessageDone
  refine .complete phase_newMessage fun off => ?_
  split_ifs <;> simp

/-- Case `s_headers_done`. -/
theorem onHeadersDone_advances : Advances s (onHeadersDone parser ch) := by
  unfold onHeadersDone
  refine .strictCheck ?_
  simp only
  split_ifs
  · exact .complete phase_newMessage (by simp)
  · exact .complete phase_newMessage (by simp)
  · exact .behind rfl (by simp)
  · exact .complete phase_newMessage (by simp)
  · exact .behind rfl (by simp)
  · exact .complete phase_newMessage (by simp)
  · exact .behind rfl (by simp)

/-- Case `s_headers_almost_done`. -/
theorem onHeadersAlmostDone_advances : Advances s (onHeadersAlmostDone parser ch) := by
  unfold onHeadersAlmostDone
  refine .strictCheck ?_
  simp only
  split_ifs
  · exact onMessageDone_advances
  · exact .fail (by decide) (by simp)
  · exact onHeadersDone_advances.reexecute (by simp [Op.Plain, Op.ofQuery])

/-! ## Headers -/

/-- Case `s_header_field_start`. -/
theorem onHeaderFieldStart_advances : Advances s (onHeaderFieldStart parser ch) := by
  unfold onHeaderFieldStart
  simp only
  split_ifs
  · exact .behind rfl (by simp)
  · exact onHeadersAlmostDone_advances
  · exact .fail (by decide) (by simp)
  all_goals exact .behind rfl (by simp [Op.Plain, Op.ofQuery, SpanKind.ofQuery])

/-- Case `s_header_field`. -/
theorem onHeaderField_advances (hs : parser.state = .headerField) :
    Advances s (onHeaderField parser (ch :: tail)) := by
  unfold onHeaderField
  split
  case h_1 => exact .abort
  case h_2 scan hscan =>
    have hstate : (scan.parser.addNread scan.count).state.phase = 2 :=
      congrArg State.phase ((scanHeaderField_spec hscan).1.trans hs)
    simp only
    split_ifs
    · exact .failed (by decide) (by simp)
    split
    -- The buffer ends within the name, or the name ends at a byte of the buffer.
    case h_1 => exact .behind hstate (by simp)
    case h_2 =>
      split_ifs
      · exact .behind rfl (by simp [Op.Plain, Op.ofQuery, SpanKind.ofQuery])
      · exact .failed (by decide) (by simp)

/-- Case `s_header_value_start`. -/
theorem onHeaderValueStart_advances : Advances s (onHeaderValueStart parser ch) := by
  have hops : ∀ op ∈ [Op.mark .headerValue], op.Plain s := by
    simp [Op.Plain, Op.ofQuery, SpanKind.ofQuery]
  unfold onHeaderValueStart
  simp only
  split <;> try split_ifs
  all_goals first
    | exact .behind rfl hops
    | exact .fail (by decide) hops

/-- Case `s_header_value_discard_ws`. -/
theorem onHeaderValueDiscardWs_advances (hs : s.phase ≤ parser.state.phase) :
    Advances s (onHeaderValueDiscardWs parser ch) := by
  unfold onHeaderValueDiscardWs
  split_ifs
  · exact .goes hs (by simp)
  · exact .behind rfl (by simp)
  · exact .behind rfl (by simp)
  · exact onHeaderValueStart_advances

/-- Case `s_header_almost_done`. -/
theorem onHeaderAlmostDone_advances {extra : Nat} :
    Advances s (onHeaderAlmostDone parser ch extra) := by
  unfold onHeaderAlmostDone
  split_ifs
  · exact .failed (by decide) (by simp)
  · exact .behind rfl (by simp)

/-- A byte of a header value that fails sets the error. -/
theorem errno_of_headerValueChar {hState : HeaderState} {scanned : HttpParser} {e : HttpErrno}
    (h : headerValueChar parser hState ch tail = .error scanned e) : e ≠ .OK := by
  have hcontentLength : contentLengthChar parser hState ch = .error scanned e → e ≠ .OK := by
    unfold contentLengthChar
    split_ifs <;> simp only [ValueStep.error.injEq, false_imp_iff] <;>
      exact fun h => h.2 ▸ by decide
  have hconnection : connectionValueChar parser hState ch ≠ .error scanned e := by
    unfold connectionValueChar
    split_ifs <;> simp
  unfold headerValueChar at h
  by_cases hinvalid : (!parser.lenientHttpHeaders && !isHeaderChar ch) = true
  · rw [if_pos hinvalid] at h
    exact (ValueStep.error.inj h).2 ▸ by decide
  rw [if_neg hinvalid] at h
  cases hState <;> first
    | exact hcontentLength h
    | exact absurd h hconnection
    | cases h
    | (simp only [] at h; split_ifs at h)

/-- The loop of `s_header_value` fails with an error. -/
theorem errno_of_scanHeaderValue {hState : HeaderState} {count skip n : Nat} {rest : List UInt8}
    {scanned : HttpParser} {e : HttpErrno}
    (h : scanHeaderValue parser hState count skip rest = .error scanned e n) : e ≠ .OK := by
  induction rest generalizing parser hState count skip with
  | nil => cases h
  | cons ch tail ih =>
    cases skip with
    | succ skip => exact ih h
    | zero =>
      rw [scanHeaderValue] at h
      split_ifs at h
      split at h
      case h_1 => exact ih h
      case h_2 hstep =>
        obtain ⟨-, rfl, -⟩ := ValueScan.error.inj h
        exact errno_of_headerValueChar hstep
      case h_3 => cases h

/-- Case `s_header_value`. -/
theorem onHeaderValue_advances (hs : parser.state = .headerValue) :
    Advances s (onHeaderValue parser (ch :: tail)) := by
  have hops : ∀ count, ∀ op ∈ [Op.callbackData .headerValue count], op.Plain s := by
    simp [Op.Plain, Op.ofQuery, SpanKind.ofQuery]
  have hscan : (scanHeaderValue parser parser.headerState 0 0 (ch :: tail)).Within
      parser.httpErrno (0 + (tail.length + 1)) := scanHeaderValue_within hs
  unfold onHeaderValue
  split
  case h_1 =>
    simp only
    split_ifs
    · exact .failed (by decide) (hops _)
    · exact .behind rfl (hops _)
  case h_2 =>
    simp only
    split_ifs
    · exact .failed (by decide) (by simp)
    · exact onHeaderAlmostDone_advances.reexecute (hops _)
  case h_3 scanned hState count heq =>
    -- The buffer ends within the value.
    have hstate := (heq ▸ hscan).1
    simp only
    split_ifs
    · exact .failed (by decide) (by simp)
    · exact .behind (congrArg State.phase hstate) (by simp)
  case h_4 heq => exact .failed (errno_of_scanHeaderValue heq) (by simp)
  case h_5 => exact .abort

/-- Case `s_header_value_lws`. -/
theorem onHeaderValueLws_advances : Advances s (onHeaderValueLws parser ch) := by
  unfold onHeaderValueLws
  split_ifs
  · exact onHeaderValueStart_advances
  · exact onHeaderFieldStart_advances

/-- Case `s_header_value_discard_lws`. -/
theorem onHeaderValueDiscardLws_advances : Advances s (onHeaderValueDiscardLws parser ch) := by
  unfold onHeaderValueDiscardLws
  split_ifs
  · exact .behind rfl (by simp)
  · exact onHeaderFieldStart_advances.reexecute (by simp [Op.Plain, Op.ofQuery, SpanKind.ofQuery])

/-! ## Bodies -/

/-- Case `s_body_identity`. -/
theorem onBodyIdentity_advances (hs : parser.state = .bodyIdentity) :
    Advances s (onBodyIdentity parser (ch :: tail)) := by
  have hstate : parser.state.phase = 2 := congrArg State.phase hs
  unfold onBodyIdentity
  simp only
  split_ifs
  · exact .abort
  · exact onMessageDone_advances.reexecute (by simp [Op.Plain, Op.ofQuery, SpanKind.ofQuery])
  · exact .behind hstate (by simp [Op.Plain, Op.ofQuery, SpanKind.ofQuery])

/-- Case `s_body_identity_eof`. -/
theorem onBodyIdentityEof_advances (hs : parser.state = .bodyIdentityEof) :
    Advances s (onBodyIdentityEof parser (ch :: tail)) :=
  .behind (congrArg State.phase hs) (by simp [Op.Plain, Op.ofQuery, SpanKind.ofQuery])

/-- Case `s_chunk_size_start`. -/
theorem onChunkSizeStart_advances : Advances s (onChunkSizeStart parser ch) := by
  unfold onChunkSizeStart
  split_ifs
  · exact .abort
  · split
    · exact .fail (by decide) (by simp)
    · exact .behind rfl (by simp)

/-- Case `s_chunk_size`. -/
theorem onChunkSize_advances (hs : parser.state = .chunkSize) :
    Advances s (onChunkSize parser ch) := by
  unfold onChunkSize
  -- Whether the byte is a digit of the size.
  cases unhex ch with
  | none =>
    simp only
    split_ifs
    · exact .abort
    · exact .behind rfl (by simp)
    · exact .behind rfl (by simp)
    · exact .fail (by decide) (by simp)
  | some d =>
    simp only
    split_ifs
    · exact .abort
    · exact .behind rfl (by simp)
    · exact .fail (by decide) (by simp)
    · exact .behind (congrArg State.phase hs) (by simp)

/-- Case `s_chunk_parameters`. -/
theorem onChunkParameters_advances (hs : parser.state = .chunkParameters) :
    Advances s (onChunkParameters parser ch) := by
  unfold onChunkParameters
  split_ifs
  · exact .abort
  · exact .behind rfl (by simp)
  · exact .behind (congrArg State.phase hs) (by simp)

/-- Case `s_chunk_size_almost_done`. -/
theorem onChunkSizeAlmostDone_advances : Advances s (onChunkSizeAlmostDone parser ch) := by
  unfold onChunkSizeAlmostDone
  split_ifs
  · exact .abort
  · refine .strictCheck ?_
    simp only
    split_ifs
    · exact .behind rfl (by simp)
    · exact .behind rfl (by simp)

/-- Case `s_chunk_data`. -/
theorem onChunkData_advances (hs : parser.state = .chunkData) :
    Advances s (onChunkData parser (ch :: tail)) := by
  have hops : ∀ op ∈ [Op.mark .body], op.Plain s := by
    simp [Op.Plain, Op.ofQuery, SpanKind.ofQuery]
  unfold onChunkData
  simp only
  split_ifs
  · exact .abort
  · exact .abort
  · exact .behind rfl hops
  · exact .behind (congrArg State.phase hs) hops

/-- Case `s_chunk_data_almost_done`. -/
theorem onChunkDataAlmostDone_advances : Advances s (onChunkDataAlmostDone parser ch) := by
  unfold onChunkDataAlmostDone
  split_ifs
  · exact .abort
  · exact .strictCheck (.behind rfl (by simp [Op.Plain, Op.ofQuery, SpanKind.ofQuery]))

/-- Case `s_chunk_data_done`. -/
theorem onChunkDataDone_advances : Advances s (onChunkDataDone parser ch) := by
  unfold onChunkDataDone
  split_ifs
  · exact .abort
  · exact .strictCheck (.behind rfl (by simp))

/-- Case `s_dead`. -/
theorem onDead_advances (hs : s.phase = 0) : Advances s (onDead parser ch) := by
  unfold onDead
  split_ifs
  · exact .goes (hs ▸ Nat.zero_le _) (by simp)
  · exact .fail (by decide) (by simp)

/-! ## One iteration -/

/-- Every case of the switch goes on in the message or ends it. -/
theorem dispatch_advances (parser : HttpParser) (ch : UInt8) (tail : List UInt8) :
    Advances parser.state (dispatch parser ch tail) := by
  unfold dispatch
  -- One lemma for each case of the switch.
  cases hs : parser.state with
  | dead => exact onDead_advances rfl
  | startReqOrRes => exact onStartReqOrRes_advances rfl
  | resOrRespH => exact onResOrRespH_advances le_rfl
  | startRes => exact onStartRes_advances rfl
  | resH => exact expect_advances rfl
  | resHT => exact expect_advances rfl
  | resHTT => exact expect_advances rfl
  | resHTTP => exact expect_advances rfl
  | resFirstHttpMajor => exact onFirstHttpMajor_advances rfl
  | resHttpMajor => exact onHttpMajor_advances rfl (hs ▸ le_rfl)
  | resFirstHttpMinor => exact onFirstHttpMinor_advances rfl
  | resHttpMinor => exact onResHttpMinor_advances (hs ▸ le_rfl)
  | resFirstStatusCode => exact onResFirstStatusCode_advances (hs ▸ le_rfl)
  | resStatusCode => exact onResStatusCode_advances (hs ▸ le_rfl)
  | resStatusStart => exact onResStatusStart_advances
  | resStatus => exact onResStatus_advances (hs ▸ le_rfl)
  | resLineAlmostDone => exact expect_advances rfl
  | startReq => exact onStartReq_advances rfl
  | reqMethod => exact onReqMethod_advances le_rfl (hs ▸ rfl)
  | reqSpacesBeforeUrl => exact onReqSpacesBeforeUrl_advances le_rfl (hs ▸ rfl)
  | reqSchema | reqSchemaSlash | reqSchemaSlashSlash | reqServerStart =>
    exact onReqSchema_advances le_rfl
  | reqServer | reqServerWithAt | reqPath => exact onReqPath_advances le_rfl
  | reqQueryStringStart | reqQueryString => exact onReqQueryString_advances le_rfl rfl
  | reqQueryValueStart | reqQueryValue => exact onReqQueryValue_advances le_rfl rfl
  | reqFragmentStart | reqFragment => exact onReqFragment_advances le_rfl
  | reqHttpStart => exact onReqHttpStart_advances (hs ▸ le_rfl)
  | reqHttpH => exact expect_advances rfl
  | reqHttpHT => exact expect_advances rfl
  | reqHttpHTT => exact expect_advances rfl
  | reqHttpHTTP => exact expect_advances rfl
  | reqFirstHttpMajor => exact onFirstHttpMajor_advances rfl
  | reqHttpMajor => exact onHttpMajor_advances rfl (hs ▸ le_rfl)
  | reqFirstHttpMinor => exact onFirstHttpMinor_advances rfl
  | reqHttpMinor => exact onReqHttpMinor_advances (hs ▸ le_rfl)
  | reqLineAlmostDone => exact onReqLineAlmostDone_advances
  | headerFieldStart => exact onHeaderFieldStart_advances
  | headerField => exact onHeaderField_advances hs
  | headerValueDiscardWs => exact onHeaderValueDiscardWs_advances (hs ▸ le_rfl)
  | headerValueDiscardWsAlmostDone => exact expect_advances rfl
  | headerValueDiscardLws => exact onHeaderValueDiscardLws_advances
  | headerValueStart => exact onHeaderValueStart_advances
  | headerValue => exact onHeaderValue_advances hs
  | headerValueLws => exact onHeaderValueLws_advances
  | headerAlmostDone => exact onHeaderAlmostDone_advances
  | chunkSizeStart => exact onChunkSizeStart_advances
  | chunkSize => exact onChunkSize_advances hs
  | chunkParameters => exact onChunkParameters_advances hs
  | chunkSizeAlmostDone => exact onChunkSizeAlmostDone_advances
  | headersAlmostDone => exact onHeadersAlmostDone_advances
  | headersDone => exact onHeadersDone_advances
  | chunkData => exact onChunkData_advances hs
  | chunkDataAlmostDone => exact onChunkDataAlmostDone_advances
  | chunkDataDone => exact onChunkDataDone_advances
  | bodyIdentity => exact onBodyIdentity_advances hs
  | bodyIdentityEof => exact onBodyIdentityEof_advances hs
  | messageDone => exact onMessageDone_advances

/-- Every iteration of the main loop goes on in the message or ends it. -/
theorem iteration_advances (parser : HttpParser) (ch : UInt8) (tail : List UInt8) :
    Advances parser.state (iteration parser ch tail) := by
  unfold iteration
  simp only
  split_ifs
  · exact .fail (by decide) (by simp)
  · exact dispatch_advances (parser.addNread 1) ch tail
  · exact dispatch_advances parser ch tail

end MosqCluster.Http
