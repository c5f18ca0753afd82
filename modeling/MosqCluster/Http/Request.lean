import MosqCluster.Http.Parser.Resume

/-!
# Requests

`HttpRequestBase` and `HttpRequest` of `server/http_request.cpp`: the parser record and what the
callbacks store. Every data callback assigns the span it is given. A read buffer has fewer than
`INT_MAX` bytes, so `assign` copies a span as it is; a map keyed by `xstring` compares contents. The
socket, the time stamp and the field `data_`, which the parser does not touch, are left out.

## Main definitions

* `HttpRequest`, with its callbacks and `HttpRequest.append`;
* `HttpRequest.message`: what a handler can ask a request for;
* `Complete`: a buffer that holds one request and nothing else.
-/

namespace MosqCluster.Http

/-- The fields of `HttpRequestBase`. -/
structure HttpRequest where
  finished : Bool
  parser : HttpParser
  tempkey : Bytes
  tempval : Bytes
  url : Bytes
  /-- `none` is a variable that is not initialised. -/
  method : Option HttpMethod
  body : Bytes
  fragment : Bytes
  headers : Bytes → Option Bytes
  queries : Bytes → Option Bytes

/-- What a handler can ask a request for. -/
structure Message where
  url : Bytes
  method : Option HttpMethod
  headers : Bytes → Option Bytes
  queries : Bytes → Option Bytes
  fragment : Bytes
  body : Bytes

namespace HttpRequest

/-- `HttpRequestBase::HttpRequestBase`. -/
def fresh : HttpRequest where
  finished := false
  parser := httpParserInit .request
  tempkey := []
  tempval := []
  url := []
  method := none
  body := []
  fragment := []
  headers := fun _ => none
  queries := fun _ => none

/-- The message in a request. -/
def message (r : HttpRequest) : Message where
  url := r.url
  method := r.method
  headers := r.headers
  queries := r.queries
  fragment := r.fragment
  body := r.body

/-! ## Callbacks -/

/-- `OnUrl`. -/
def onUrl (r : HttpRequest) (span : Bytes) : HttpRequest := { r with url := span }

/-- `OnHeadersComplete`. -/
def onHeadersComplete (r : HttpRequest) (method : HttpMethod) : HttpRequest :=
  { r with method := some method }

/-- `OnBody`. -/
def onBody (r : HttpRequest) (span : Bytes) : HttpRequest := { r with body := span }

/-- `OnHeaderField`. -/
def onHeaderField (r : HttpRequest) (span : Bytes) : HttpRequest := { r with tempkey := span }

/-- `OnHeaderValue`. -/
def onHeaderValue (r : HttpRequest) (span : Bytes) : HttpRequest :=
  { r with tempval := span, headers := Function.update r.headers r.tempkey (some span) }

/-- `OnMessageComplete`. -/
def onMessageComplete (r : HttpRequest) : HttpRequest := { r with finished := true }

/-- `OnQueryField`. -/
def onQueryField (r : HttpRequest) (span : Bytes) : HttpRequest := { r with tempkey := span }

/-- `OnQueryValue`. -/
def onQueryValue (r : HttpRequest) (span : Bytes) : HttpRequest :=
  { r with tempval := span, queries := Function.update r.queries r.tempkey (some span) }

/-- `OnFragment`. -/
def onFragment (r : HttpRequest) (span : Bytes) : HttpRequest := { r with fragment := span }

/-- The data callbacks that `Init` installs. -/
def onData (r : HttpRequest) (span : Bytes) : SpanKind → HttpRequest
  | .headerField => r.onHeaderField span
  | .headerValue => r.onHeaderValue span
  | .url => r.onUrl span
  | .body => r.onBody span
  | .status => r
  | .queryField => r.onQueryField span
  | .queryValue => r.onQueryValue span
  | .fragment => r.onFragment span

/-- One call of a callback, whose span is taken from the buffer `data`. `OnMessageBegin` does
nothing. -/
def call (data : Bytes) (r : HttpRequest) : Call → HttpRequest
  | .onMessageBegin => r
  | .onData kind start length => r.onData ((data.drop start).take length) kind
  | .onHeadersComplete method => r.onHeadersComplete method
  | .onMessageComplete => r.onMessageComplete

/-- The callbacks that a run of the parser makes, and the record it leaves. -/
def receive (r : HttpRequest) (data : Bytes) (result : ExecuteResult) : HttpRequest :=
  { result.calls.foldl (call data) r with parser := result.parser }

/-- `HttpRequest::Append`. `none` is a failed assertion in the parser. -/
def append (r : HttpRequest) (data : Bytes) : Option HttpRequest :=
  (httpParserExecute r.parser data).map (r.receive data)

/-- The buffers of a connection, one after another. -/
def appendAll (r : HttpRequest) : List Bytes → Option HttpRequest
  | [] => some r
  | data :: rest => (r.append data).bind fun r => r.appendAll rest

end HttpRequest

/-- The buffer holds one request and nothing else: the parser of a new connection reads it to the
end without an error, completes one message, and then waits for the next message, is done with the
connection, or leaves it to another protocol. -/
def Complete (data : Bytes) : Bool :=
  match mainLoop (.enter (httpParserInit .request)) 0 data with
  | .done l =>
    l.atMostOneMark && l.calls.count .onMessageComplete = 1 &&
      (l.parser.state = .startReq || l.parser.state = .dead)
  | .returned l nparsed =>
    l.parser.httpErrno = .OK && l.calls.count .onMessageComplete = 1 && nparsed = data.length
  | .abort => false

namespace HttpRequest

variable {r : HttpRequest} {data more : Bytes}

/-! ## Calls in a longer buffer -/

/-- The callbacks do not look at the parser record. -/
theorem parser_foldl_call (data : Bytes) (calls : List Call) (r : HttpRequest)
    (parser : HttpParser) :
    calls.foldl (call data) { r with parser } =
      { calls.foldl (call data) r with parser } := by
  induction calls generalizing r with
  | nil => rfl
  | cons c calls ih =>
    have hcall : call data { r with parser } c = { call data r c with parser } := by
      cases c with
      | onData kind start length => cases kind <;> rfl
      | _ => rfl
    rw [List.foldl_cons, List.foldl_cons, hcall, ih]

/-- A request that is finished stays so. -/
theorem finished_append {r' : HttpRequest} (hr : r.finished = true)
    (happend : r.append data = some r') : r'.finished = true := by
  obtain ⟨result, -, rfl⟩ := Option.map_eq_some_iff.mp happend
  suffices hcalls : ∀ calls : List Call, ∀ r : HttpRequest, r.finished = true →
      (calls.foldl (call data) r).finished = true from hcalls result.calls r hr
  intro calls
  induction calls with
  | nil => exact fun r hr => hr
  | cons c calls ih =>
    intro r hr
    apply ih
    cases c with
    | onMessageComplete => rfl
    | onData kind start length => cases kind <;> exact hr
    | _ => exact hr

/-- A span of a buffer is a span of a longer one. -/
theorem foldl_call_append {calls : List Call} (r : HttpRequest)
    (h : ∀ kind start length, .onData kind start length ∈ calls → start + length ≤ data.length) :
    calls.foldl (call (data ++ more)) r = calls.foldl (call data) r := by
  induction calls generalizing r with
  | nil => rfl
  | cons c calls ih =>
    have hcall : call (data ++ more) r c = call data r c := by
      cases c with
      | onData kind start length =>
        have hle := h kind start length (by simp)
        rw [call, call, List.drop_append_of_le_length (by omega),
          List.take_append_of_le_length (by rw [List.length_drop]; omega)]
      | _ => rfl
    rw [List.foldl_cons, List.foldl_cons, hcall]
    exact ih _ fun kind start length hmem => h kind start length (by simp [hmem])

/-- A span of the second part of a buffer. -/
theorem foldl_call_shift (calls : List Call) (r : HttpRequest) :
    (calls.map (Call.shift data.length)).foldl (call (data ++ more)) r =
      calls.foldl (call more) r := by
  induction calls generalizing r with
  | nil => rfl
  | cons c calls ih =>
    have hcall : call (data ++ more) r (c.shift data.length) = call more r c := by
      cases c with
      | onData kind start length =>
        rw [Call.shift, call, call, Nat.add_comm, List.drop_length_add_append]
      | _ => rfl
    rw [List.map_cons, List.foldl_cons, List.foldl_cons, hcall, ih]

/-- A run in a longer buffer makes the calls of its two parts. -/
theorem receive_shift {calls : List Call} {parser : HttpParser} {nparsed : Nat}
    {result : ExecuteResult}
    (h : ∀ kind start length, .onData kind start length ∈ calls → start + length ≤ data.length) :
    r.receive (data ++ more) (result.shift data.length calls) =
      (r.receive data ⟨parser, calls, nparsed⟩).receive more result := by
  have hparser := parser_foldl_call more result.calls (calls.foldl (call data) r) parser
  simp only [receive, ExecuteResult.shift, hparser]
  rw [List.foldl_append, foldl_call_append r h, foldl_call_shift]

end HttpRequest

end MosqCluster.Http
