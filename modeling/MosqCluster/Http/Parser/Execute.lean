import MosqCluster.Http.Parser.Headers
import MosqCluster.Http.Parser.Url

/-!
# `http_parser_execute`

The main loop of `server/http_parser.cpp` under the settings that `HttpRequestBase::Init` installs:
`on_status`, `on_chunk_header` and `on_chunk_complete` are null, and every other callback returns
`0` and leaves the parser alone. The branches taken when a callback fails are therefore absent, and
the callbacks are recorded as `Call`s in the order they are made.

One pass through the switch is `dispatch`. It sees the parser record, the byte `p` stands on and
the bytes after it, and returns a `Transition`: the record it leaves, the marks it sets and the
callbacks it runs (`Op`), and how it leaves the switch (`Exit`). Neither the position of `p` in the
buffer nor the marks influence which way it goes. `REEXECUTE` with a state just set is a call of
that state's case. The local `p_state` and the field `state` are one: the source copies one to the
other around every callback and on every exit.

## Main definitions

* `dispatch`: one pass through the switch;
* `mainLoop`: the loop over the buffer;
* `httpParserExecute`: the whole function, `none` when an assertion fails.
-/

namespace MosqCluster.Http

/-- The data callbacks, one for each mark. -/
inductive SpanKind
  | headerField
  | headerValue
  | url
  | body
  | status
  | queryField
  | queryValue
  | fragment
  deriving DecidableEq, Repr

/-- The macros that touch marks and callbacks, in the order a transition runs them. -/
inductive Op
  /-- `MARK(kind)`, with `p` where the transition starts. -/
  | mark (kind : SpanKind)
  /-- `CALLBACK_DATA(kind)` or its variants: the span ends `stop` bytes after the start of the
  transition. -/
  | callbackData (kind : SpanKind) (stop : Nat)
  /-- `CALLBACK_NOTIFY(message_begin)`. -/
  | messageBegin
  /-- `settings->on_headers_complete(parser)`, which reads the method. -/
  | headersComplete (method : HttpMethod)
  /-- `CALLBACK_NOTIFY(message_complete)`. -/
  | messageComplete
  deriving DecidableEq, Repr

/-- How a transition leaves the switch. -/
inductive Exit
  /-- `break`, with `p` advanced by `extra`; the loop then advances it by one more. -/
  | next (extra : Nat)
  /-- `goto error`, with `p` advanced by `off`. -/
  | error (off : Nat)
  /-- `RETURN(V)`, where `V` counts `consumed` bytes from the start of the transition. -/
  | ret (consumed : Nat)
  /-- A failed assertion. -/
  | abort
  deriving DecidableEq, Repr

/-- One pass through the switch. -/
structure Transition where
  /-- The parser record it leaves. -/
  parser : HttpParser
  /-- The marks and callbacks it runs. -/
  ops : List Op
  /-- How it leaves the switch. -/
  exit : Exit

namespace Transition

/-- `break`. -/
def next (parser : HttpParser) (ops : List Op) : Transition := ⟨parser, ops, .next 0⟩

/-- `SET_ERRNO(e); goto error`. -/
def fail (parser : HttpParser) (e : HttpErrno) (ops : List Op) : Transition :=
  ⟨{ parser with httpErrno := e }, ops, .error 0⟩

/-- A failed `assert`. -/
def abort (parser : HttpParser) : Transition := ⟨parser, [], .abort⟩

/-- `REEXECUTE()` after `ops`. -/
def reexecute (ops : List Op) (t : Transition) : Transition := { t with ops := ops ++ t.ops }

/-- `STRICT_CHECK(cond)` followed by `t`. -/
def strictCheck (cond : Bool) (parser : HttpParser) (t : Transition) : Transition :=
  if cond then fail parser .STRICT [] else t

end Transition

/-! ## Start of a message -/

/-- The first letter of a method, with the method it may begin. -/
def firstMethod (ch : UInt8) : Option HttpMethod :=
  if ch = 'A' then some .ACL
  else if ch = 'B' then some .BIND
  else if ch = 'C' then some .CONNECT
  else if ch = 'D' then some .DELETE
  else if ch = 'G' then some .GET
  else if ch = 'H' then some .HEAD
  else if ch = 'L' then some .LOCK
  else if ch = 'M' then some .MKCOL
  else if ch = 'N' then some .NOTIFY
  else if ch = 'O' then some .OPTIONS
  else if ch = 'P' then some .POST
  else if ch = 'R' then some .REPORT
  else if ch = 'S' then some .SUBSCRIBE
  else if ch = 'T' then some .TRACE
  else if ch = 'U' then some .UNLOCK
  else none

/-- Case `s_start_req`. -/
def onStartReq (parser : HttpParser) (ch : UInt8) : Transition :=
  if ch = CR || ch = LF then .next parser []
  else
    let parser := { parser with flags := {}, contentLength := ullongMax }
    if !isAlpha ch then .fail parser .INVALID_METHOD []
    else
      match firstMethod ch with
      | none => .fail { parser with method := .DELETE, index := 1 } .INVALID_METHOD []
      | some method =>
        .next { parser with method := method, index := 1, state := .reqMethod } [.messageBegin]

/-- Case `s_start_req_or_res`. -/
def onStartReqOrRes (parser : HttpParser) (ch : UInt8) : Transition :=
  if ch = CR || ch = LF then .next parser []
  else
    let parser := { parser with flags := {}, contentLength := ullongMax }
    if ch = 'H' then .next { parser with state := .resOrRespH } [.messageBegin]
    else onStartReq { parser with type := .request, state := .startReq } ch

/-- Case `s_res_or_resp_H`. -/
def onResOrRespH (parser : HttpParser) (ch : UInt8) : Transition :=
  if ch = 'T' then .next { parser with type := .response, state := .resHT } []
  else if ch ≠ 'E' then .fail parser .INVALID_CONSTANT []
  else
    .next { parser with type := .request, method := .HEAD, index := 2, state := .reqMethod } []

/-- Case `s_start_res`. -/
def onStartRes (parser : HttpParser) (ch : UInt8) : Transition :=
  let parser := { parser with flags := {}, contentLength := ullongMax }
  if ch = 'H' then .next { parser with state := .resH } [.messageBegin]
  else if ch = CR || ch = LF then .next parser [.messageBegin]
  else .fail parser .INVALID_CONSTANT []

/-- The letters at which the method being matched turns out to be another one. -/
def changeMethod (method : HttpMethod) (index : Nat) (ch : UInt8) : Option HttpMethod :=
  match method, index with
  | .POST, 1 =>
    if ch = 'U' then some .PUT
    else if ch = 'A' then some .PATCH
    else if ch = 'R' then some .PROPFIND
    else none
  | .CONNECT, 1 => if ch = 'H' then some .CHECKOUT else none
  | .CONNECT, 2 => if ch = 'P' then some .COPY else none
  | .MKCOL, 1 => if ch = 'O' then some .MOVE else if ch = 'E' then some .MERGE else none
  | .MKCOL, 2 => if ch = 'A' then some .MKACTIVITY else none
  | .MKCOL, 3 => if ch = 'A' then some .MKCALENDAR else none
  | .SUBSCRIBE, 1 => if ch = 'E' then some .SEARCH else none
  | .REPORT, 2 => if ch = 'B' then some .REBIND else none
  | .PROPFIND, 4 => if ch = 'P' then some .PROPPATCH else none
  | .PUT, 2 => if ch = 'R' then some .PURGE else none
  | .LOCK, 1 => if ch = 'I' then some .LINK else none
  | .UNLOCK, 2 =>
    if ch = 'S' then some .UNSUBSCRIBE
    else if ch = 'B' then some .UNBIND
    else none
  | .UNLOCK, 3 => if ch = 'I' then some .UNLINK else none
  | _, _ => none

/-- Case `s_req_method`. -/
def onReqMethod (parser : HttpParser) (ch : UInt8) : Transition :=
  if ch = 0 then .fail parser .INVALID_METHOD []
  else
    let expected := (bytes (methodStrings parser.method)).getD parser.index.toNat 0
    let advance (parser : HttpParser) : Transition :=
      .next { parser with index := parser.index + 1 } []
    if ch = ' ' && expected = 0 then advance { parser with state := .reqSpacesBeforeUrl }
    else if ch = expected then advance parser
    else if isAlpha ch then
      match changeMethod parser.method parser.index.toNat ch with
      | some method => advance { parser with method := method }
      | none => .fail parser .INVALID_METHOD []
    else if ch = '-' && parser.index = 1 && parser.method = .MKCOL then
      advance { parser with method := .MSEARCH }
    else .fail parser .INVALID_METHOD []

/-! ## Request target -/

/-- `UPDATE_STATE(parse_url_char(CURRENT_STATE(), ch))` and the check that follows it. -/
def stepUrl (parser : HttpParser) (ch : UInt8) (ops : List Op) : Transition :=
  let s := parseUrlChar parser.state ch
  if s = .dead then .fail { parser with state := s } .INVALID_URL ops
  else .next { parser with state := s } ops

/-- Case `s_req_spaces_before_url`. -/
def onReqSpacesBeforeUrl (parser : HttpParser) (ch : UInt8) : Transition :=
  if ch = ' ' then .next parser []
  else
    let parser :=
      if parser.method = .CONNECT then { parser with state := .reqServerStart } else parser
    stepUrl parser ch [.mark .url]

/-- Cases `s_req_schema`, `s_req_schema_slash`, `s_req_schema_slash_slash` and
`s_req_server_start`. -/
def onReqSchema (parser : HttpParser) (ch : UInt8) : Transition :=
  if ch = ' ' || ch = CR || ch = LF then .fail parser .INVALID_URL []
  else stepUrl parser ch []

/-- Cases `s_req_server`, `s_req_server_with_at` and `s_req_path`. -/
def onReqPath (parser : HttpParser) (ch : UInt8) : Transition :=
  if ch = ' ' then .next { parser with state := .reqHttpStart } [.callbackData .url 0]
  else if ch = CR || ch = LF then
    let s := if ch = CR then .reqLineAlmostDone else .headerFieldStart
    .next { parser with httpMajor := 0, httpMinor := 9, state := s } [.callbackData .url 0]
  else if ch = '?' then
    .next { parser with state := .reqQueryStringStart } [.callbackData .url 0]
  else stepUrl parser ch []

/-- Cases `s_req_query_string_start` and `s_req_query_string`. -/
def onReqQueryString (parser : HttpParser) (ch : UInt8) : Transition :=
  if ch = ' ' then .next { parser with state := .reqHttpStart } [.mark .queryField]
  else if ch = '=' then
    .next { parser with state := .reqQueryValueStart }
      [.mark .queryField, .callbackData .queryField 0]
  else if ch = '#' then .next { parser with state := .reqFragmentStart } [.mark .queryField]
  else stepUrl parser ch [.mark .queryField]

/-- Cases `s_req_query_value_start` and `s_req_query_value`. -/
def onReqQueryValue (parser : HttpParser) (ch : UInt8) : Transition :=
  let close : List Op := [.mark .queryValue, .callbackData .queryValue 0]
  if ch = ' ' then .next { parser with state := .reqHttpStart } close
  else if ch = '&' then .next { parser with state := .reqQueryStringStart } close
  else if ch = '#' then .next { parser with state := .reqFragmentStart } close
  else stepUrl parser ch [.mark .queryValue]

/-- Cases `s_req_fragment_start` and `s_req_fragment`. -/
def onReqFragment (parser : HttpParser) (ch : UInt8) : Transition :=
  if ch = ' ' then
    .next { parser with state := .reqHttpStart } [.mark .fragment, .callbackData .fragment 0]
  else stepUrl parser ch [.mark .fragment]

/-! ## Start line -/

/-- Case `s_req_http_start`. -/
def onReqHttpStart (parser : HttpParser) (ch : UInt8) : Transition :=
  if ch = 'H' then .next { parser with state := .reqHttpH } []
  else if ch = ' ' then .next parser []
  else .fail parser .INVALID_CONSTANT []

/-- The cases that expect one character and otherwise fail a `STRICT_CHECK`. -/
def expect (parser : HttpParser) (ch c : UInt8) (s : State) : Transition :=
  .strictCheck (ch ≠ c) parser (.next { parser with state := s } [])

/-- The first digit of the major version. The first digit of a response may be `0`, that of a
request may not. -/
def onFirstHttpMajor (least : UInt8) (parser : HttpParser) (ch : UInt8) (s : State) :
    Transition :=
  if ch < least || 57 < ch then .fail parser .INVALID_VERSION []
  else .next { parser with httpMajor := (ch - 48).toUInt16, state := s } []

/-- The major version or the dot after it. -/
def onHttpMajor (parser : HttpParser) (ch : UInt8) (s : State) : Transition :=
  if ch = '.' then .next { parser with state := s } []
  else if !isNum ch then .fail parser .INVALID_VERSION []
  else
    let parser := { parser with httpMajor := parser.httpMajor * 10 + (ch - 48).toUInt16 }
    if 999 < parser.httpMajor then .fail parser .INVALID_VERSION [] else .next parser []

/-- The first digit of the minor version. -/
def onFirstHttpMinor (parser : HttpParser) (ch : UInt8) (s : State) : Transition :=
  if !isNum ch then .fail parser .INVALID_VERSION []
  else .next { parser with httpMinor := (ch - 48).toUInt16, state := s } []

/-- One more digit of the minor version. -/
def minorDigit (parser : HttpParser) (ch : UInt8) : Transition :=
  if !isNum ch then .fail parser .INVALID_VERSION []
  else
    let parser := { parser with httpMinor := parser.httpMinor * 10 + (ch - 48).toUInt16 }
    if 999 < parser.httpMinor then .fail parser .INVALID_VERSION [] else .next parser []

/-- Case `s_res_http_minor`. -/
def onResHttpMinor (parser : HttpParser) (ch : UInt8) : Transition :=
  if ch = ' ' then .next { parser with state := .resFirstStatusCode } []
  else minorDigit parser ch

/-- Case `s_req_http_minor`. -/
def onReqHttpMinor (parser : HttpParser) (ch : UInt8) : Transition :=
  if ch = CR then .next { parser with state := .reqLineAlmostDone } []
  else if ch = LF then .next { parser with state := .headerFieldStart } []
  else minorDigit parser ch

/-- Case `s_res_first_status_code`. -/
def onResFirstStatusCode (parser : HttpParser) (ch : UInt8) : Transition :=
  if !isNum ch then
    if ch = ' ' then .next parser [] else .fail parser .INVALID_STATUS []
  else .next { parser with statusCode := (ch - 48).toUInt16, state := .resStatusCode } []

/-- Case `s_res_status_code`. -/
def onResStatusCode (parser : HttpParser) (ch : UInt8) : Transition :=
  if !isNum ch then
    if ch = ' ' then .next { parser with state := .resStatusStart } []
    else if ch = CR then .next { parser with state := .resLineAlmostDone } []
    else if ch = LF then .next { parser with state := .headerFieldStart } []
    else .fail parser .INVALID_STATUS []
  else
    let parser := { parser with statusCode := parser.statusCode * 10 + (ch - 48).toUInt16 }
    if 999 < parser.statusCode then .fail parser .INVALID_STATUS [] else .next parser []

/-- Case `s_res_status_start`. -/
def onResStatusStart (parser : HttpParser) (ch : UInt8) : Transition :=
  if ch = CR then .next { parser with state := .resLineAlmostDone } []
  else if ch = LF then .next { parser with state := .headerFieldStart } []
  else .next { parser with state := .resStatus, index := 0 } [.mark .status]

/-- Case `s_res_status`. -/
def onResStatus (parser : HttpParser) (ch : UInt8) : Transition :=
  if ch = CR then .next { parser with state := .resLineAlmostDone } [.callbackData .status 0]
  else if ch = LF then .next { parser with state := .headerFieldStart } [.callbackData .status 0]
  else .next parser []

/-- Case `s_req_line_almost_done`. -/
def onReqLineAlmostDone (parser : HttpParser) (ch : UInt8) : Transition :=
  if ch ≠ LF then .fail parser .LF_EXPECTED []
  else .next { parser with state := .headerFieldStart } []

/-! ## End of the headers -/

/-- Case `s_message_done`, with `p` advanced by `extra`. -/
def onMessageDone (parser : HttpParser) (extra : Nat) : Transition :=
  let parser := { parser with state := newMessage parser }
  ⟨parser, [.messageComplete], if parser.upgrade then .ret (extra + 1) else .next extra⟩

/-- Case `s_headers_done`. -/
def onHeadersDone (parser : HttpParser) (ch : UInt8) : Transition :=
  .strictCheck (ch ≠ LF) parser <|
    let parser := { parser with nread := 0 }
    let hasBody := parser.flags.chunked ||
      (0 < parser.contentLength && parser.contentLength ≠ ullongMax)
    let complete := { parser with state := newMessage parser }
    if parser.upgrade && (parser.method = .CONNECT || parser.flags.skipbody || !hasBody) then
      ⟨complete, [.messageComplete], .ret 1⟩
    else if parser.flags.skipbody then .next complete [.messageComplete]
    else if parser.flags.chunked then .next { parser with state := .chunkSizeStart } []
    else if parser.contentLength = 0 then .next complete [.messageComplete]
    else if parser.contentLength ≠ ullongMax then .next { parser with state := .bodyIdentity } []
    else if !httpMessageNeedsEof parser then .next complete [.messageComplete]
    else .next { parser with state := .bodyIdentityEof } []

/-- Case `s_headers_almost_done`. -/
def onHeadersAlmostDone (parser : HttpParser) (ch : UInt8) : Transition :=
  .strictCheck (ch ≠ LF) parser <|
    if parser.flags.trailing then onMessageDone { parser with state := .messageDone } 0
    else if parser.flags.chunked && parser.flags.contentLength then
      .fail parser .UNEXPECTED_CONTENT_LENGTH []
    else
      let parser := { parser with
        state := .headersDone
        upgrade := (parser.flags.upgrade && parser.flags.connectionUpgrade) ||
          parser.method = .CONNECT }
      .reexecute [.headersComplete parser.method] (onHeadersDone parser ch)

/-! ## Header lines -/

/-- Case `s_header_field_start`. -/
def onHeaderFieldStart (parser : HttpParser) (ch : UInt8) : Transition :=
  if ch = CR then .next { parser with state := .headersAlmostDone } []
  else if ch = LF then onHeadersAlmostDone { parser with state := .headersAlmostDone } ch
  else if token ch = 0 then .fail parser .INVALID_HEADER_TOKEN []
  else
    let headerState : HeaderState :=
      if token ch = 'c' then .C
      else if token ch = 'p' then .matchingProxyConnection
      else if token ch = 't' then .matchingTransferEncoding
      else if token ch = 'u' then .matchingUpgrade
      else .general
    .next { parser with index := 0, state := .headerField, headerState := headerState }
      [.mark .headerField]

/-- Case `s_header_field`, over the bytes from `p` on. -/
def onHeaderField (parser : HttpParser) (rest : List UInt8) : Transition :=
  match scanHeaderField parser 0 rest with
  | none => .abort parser
  | some scan =>
    let parser := scan.parser.addNread scan.count
    if parser.headerOverflow then
      ⟨{ parser with httpErrno := .HEADER_OVERFLOW }, [], .error scan.count⟩
    else match scan.stop with
      | none => ⟨parser, [], .next (scan.count - 1)⟩
      | some ch =>
        if ch = ':' then
          ⟨{ parser with state := .headerValueDiscardWs },
            [.callbackData .headerField scan.count], .next scan.count⟩
        else ⟨{ parser with httpErrno := .INVALID_HEADER_TOKEN }, [], .error scan.count⟩

/-- Case `s_header_value_start`. -/
def onHeaderValueStart (parser : HttpParser) (ch : UInt8) : Transition :=
  let parser := { parser with state := .headerValue, index := 0 }
  let ops : List Op := [.mark .headerValue]
  match parser.headerState with
  | .upgrade =>
    .next { parser with
      flags := { parser.flags with upgrade := true }
      headerState := .general } ops
  | .transferEncoding =>
    .next { parser with
      headerState :=
        if lower ch = 'c' then .matchingTransferEncodingChunked else .general } ops
  | .contentLength =>
    if !isNum ch then .fail parser .INVALID_CONTENT_LENGTH ops
    else if parser.flags.contentLength then .fail parser .UNEXPECTED_CONTENT_LENGTH ops
    else
      .next { parser with
        flags := { parser.flags with contentLength := true }
        contentLength := (ch - 48).toUInt64 } ops
  | .connection =>
    .next { parser with
      headerState :=
        if lower ch = 'k' then .matchingConnectionKeepAlive
        else if lower ch = 'c' then .matchingConnectionClose
        else if lower ch = 'u' then .matchingConnectionUpgrade
        else .matchingConnectionToken } ops
  | .matchingConnectionTokenStart => .next parser ops
  | _ => .next { parser with headerState := .general } ops

/-- Case `s_header_value_discard_ws`, which falls through to `s_header_value_start`. -/
def onHeaderValueDiscardWs (parser : HttpParser) (ch : UInt8) : Transition :=
  if ch = ' ' || ch = '\t' then .next parser []
  else if ch = CR then .next { parser with state := .headerValueDiscardWsAlmostDone } []
  else if ch = LF then .next { parser with state := .headerValueDiscardLws } []
  else onHeaderValueStart parser ch

/-- Case `s_header_almost_done`, with `p` advanced by `extra`. -/
def onHeaderAlmostDone (parser : HttpParser) (ch : UInt8) (extra : Nat) : Transition :=
  if ch ≠ LF then ⟨{ parser with httpErrno := .LF_EXPECTED }, [], .error extra⟩
  else ⟨{ parser with state := .headerValueLws }, [], .next extra⟩

/-- Case `s_header_value`, over the bytes from `p` on. -/
def onHeaderValue (parser : HttpParser) (rest : List UInt8) : Transition :=
  match scanHeaderValue parser parser.headerState 0 0 rest with
  | .cr scanned hState count =>
    let parser := { scanned with state := .headerAlmostDone, headerState := hState }
    let ops : List Op := [.callbackData .headerValue count]
    let parser := parser.addNread count
    if parser.headerOverflow then
      ⟨{ parser with httpErrno := .HEADER_OVERFLOW }, ops, .error count⟩
    else ⟨parser, ops, .next count⟩
  | .lf scanned hState count =>
    let parser := { scanned with state := .headerAlmostDone }
    let parser := parser.addNread count
    if parser.headerOverflow then
      ⟨{ parser with httpErrno := .HEADER_OVERFLOW }, [], .error count⟩
    else
      .reexecute [.callbackData .headerValue count]
        (onHeaderAlmostDone { parser with headerState := hState } LF count)
  | .eob scanned hState count =>
    let parser := { scanned with headerState := hState }
    let parser := parser.addNread count
    if parser.headerOverflow then
      ⟨{ parser with httpErrno := .HEADER_OVERFLOW }, [], .error count⟩
    else ⟨parser, [], .next (count - 1)⟩
  | .error scanned e count => ⟨{ scanned with httpErrno := e }, [], .error count⟩
  | .abort => .abort parser

/-- The flag that a finished header sets. -/
def finishHeader (parser : HttpParser) : HttpParser :=
  match parser.headerState with
  | .connectionKeepAlive =>
    { parser with flags := { parser.flags with connectionKeepAlive := true } }
  | .connectionClose => { parser with flags := { parser.flags with connectionClose := true } }
  | .transferEncodingChunked => { parser with flags := { parser.flags with chunked := true } }
  | .connectionUpgrade => { parser with flags := { parser.flags with connectionUpgrade := true } }
  | _ => parser

/-- Case `s_header_value_lws`. -/
def onHeaderValueLws (parser : HttpParser) (ch : UInt8) : Transition :=
  if ch = ' ' || ch = '\t' then onHeaderValueStart { parser with state := .headerValueStart } ch
  else onHeaderFieldStart { finishHeader parser with state := .headerFieldStart } ch

/-- Case `s_header_value_discard_lws`: a line that is not folded ends an empty value. -/
def onHeaderValueDiscardLws (parser : HttpParser) (ch : UInt8) : Transition :=
  if ch = ' ' || ch = '\t' then .next { parser with state := .headerValueDiscardWs } []
  else
    .reexecute [.mark .headerValue, .callbackData .headerValue 0]
      (onHeaderFieldStart { finishHeader parser with state := .headerFieldStart } ch)

/-! ## Body -/

/-- `MIN(parser->content_length, (data + len) - p)`. -/
def toRead (parser : HttpParser) (rest : List UInt8) : Nat :=
  min parser.contentLength.toNat rest.length

/-- Case `s_body_identity`, over the bytes from `p` on. -/
def onBodyIdentity (parser : HttpParser) (rest : List UInt8) : Transition :=
  if parser.contentLength = 0 || parser.contentLength = ullongMax then .abort parser
  else
    let n := toRead parser rest
    let parser := { parser with contentLength := parser.contentLength - UInt64.ofNat n }
    if parser.contentLength = 0 then
      .reexecute [.mark .body, .callbackData .body n]
        (onMessageDone { parser with state := .messageDone } (n - 1))
    else ⟨parser, [.mark .body], .next (n - 1)⟩

/-- Case `s_body_identity_eof`, over the bytes from `p` on. -/
def onBodyIdentityEof (parser : HttpParser) (rest : List UInt8) : Transition :=
  ⟨parser, [.mark .body], .next (rest.length - 1)⟩

/-- Case `s_chunk_size_start`. -/
def onChunkSizeStart (parser : HttpParser) (ch : UInt8) : Transition :=
  if parser.nread ≠ 1 || !parser.flags.chunked then .abort parser
  else match unhex ch with
    | none => .fail parser .INVALID_CHUNK_SIZE []
    | some d => .next { parser with contentLength := d, state := .chunkSize } []

/-- Case `s_chunk_size`. -/
def onChunkSize (parser : HttpParser) (ch : UInt8) : Transition :=
  if !parser.flags.chunked then .abort parser
  else if ch = CR then .next { parser with state := .chunkSizeAlmostDone } []
  else match unhex ch with
    | none =>
      if ch = ';' || ch = ' ' then .next { parser with state := .chunkParameters } []
      else .fail parser .INVALID_CHUNK_SIZE []
    | some d =>
      if (ullongMax - 16) / 16 < parser.contentLength then
        .fail parser .INVALID_CONTENT_LENGTH []
      else .next { parser with contentLength := parser.contentLength * 16 + d } []

/-- Case `s_chunk_parameters`. -/
def onChunkParameters (parser : HttpParser) (ch : UInt8) : Transition :=
  if !parser.flags.chunked then .abort parser
  else if ch = CR then .next { parser with state := .chunkSizeAlmostDone } []
  else .next parser []

/-- Case `s_chunk_size_almost_done`. -/
def onChunkSizeAlmostDone (parser : HttpParser) (ch : UInt8) : Transition :=
  if !parser.flags.chunked then .abort parser
  else .strictCheck (ch ≠ LF) parser <|
    let parser := { parser with nread := 0 }
    if parser.contentLength = 0 then
      .next { parser with
        flags := { parser.flags with trailing := true }
        state := .headerFieldStart } []
    else .next { parser with state := .chunkData } []

/-- Case `s_chunk_data`, over the bytes from `p` on. -/
def onChunkData (parser : HttpParser) (rest : List UInt8) : Transition :=
  if !parser.flags.chunked then .abort parser
  else if parser.contentLength = 0 || parser.contentLength = ullongMax then .abort parser
  else
    let n := toRead parser rest
    let parser := { parser with contentLength := parser.contentLength - UInt64.ofNat n }
    let parser :=
      if parser.contentLength = 0 then { parser with state := .chunkDataAlmostDone } else parser
    ⟨parser, [.mark .body], .next (n - 1)⟩

/-- Case `s_chunk_data_almost_done`. -/
def onChunkDataAlmostDone (parser : HttpParser) (ch : UInt8) : Transition :=
  if !parser.flags.chunked || parser.contentLength ≠ 0 then .abort parser
  else .strictCheck (ch ≠ CR) parser
    (.next { parser with state := .chunkDataDone } [.callbackData .body 0])

/-- Case `s_chunk_data_done`. -/
def onChunkDataDone (parser : HttpParser) (ch : UInt8) : Transition :=
  if !parser.flags.chunked then .abort parser
  else .strictCheck (ch ≠ LF) parser
    (.next { parser with nread := 0, state := .chunkSizeStart } [])

/-! ## The main loop -/

/-- Case `s_dead`. -/
def onDead (parser : HttpParser) (ch : UInt8) : Transition :=
  if ch = CR || ch = LF then .next parser []
  else .fail parser .CLOSED_CONNECTION []

/-- The switch of `http_parser_execute`, where `p` stands on `ch` and `tail` follows it. -/
def dispatch (parser : HttpParser) (ch : UInt8) (tail : List UInt8) : Transition :=
  match parser.state with
  | .dead => onDead parser ch
  | .startReqOrRes => onStartReqOrRes parser ch
  | .resOrRespH => onResOrRespH parser ch
  | .startRes => onStartRes parser ch
  | .resH => expect parser ch 'T' .resHT
  | .resHT => expect parser ch 'T' .resHTT
  | .resHTT => expect parser ch 'P' .resHTTP
  | .resHTTP => expect parser ch '/' .resFirstHttpMajor
  | .resFirstHttpMajor => onFirstHttpMajor '0' parser ch .resHttpMajor
  | .resHttpMajor => onHttpMajor parser ch .resFirstHttpMinor
  | .resFirstHttpMinor => onFirstHttpMinor parser ch .resHttpMinor
  | .resHttpMinor => onResHttpMinor parser ch
  | .resFirstStatusCode => onResFirstStatusCode parser ch
  | .resStatusCode => onResStatusCode parser ch
  | .resStatusStart => onResStatusStart parser ch
  | .resStatus => onResStatus parser ch
  | .resLineAlmostDone => expect parser ch LF .headerFieldStart
  | .startReq => onStartReq parser ch
  | .reqMethod => onReqMethod parser ch
  | .reqSpacesBeforeUrl => onReqSpacesBeforeUrl parser ch
  | .reqSchema | .reqSchemaSlash | .reqSchemaSlashSlash | .reqServerStart => onReqSchema parser ch
  | .reqServer | .reqServerWithAt | .reqPath => onReqPath parser ch
  | .reqQueryStringStart | .reqQueryString => onReqQueryString parser ch
  | .reqQueryValueStart | .reqQueryValue => onReqQueryValue parser ch
  | .reqFragmentStart | .reqFragment => onReqFragment parser ch
  | .reqHttpStart => onReqHttpStart parser ch
  | .reqHttpH => expect parser ch 'T' .reqHttpHT
  | .reqHttpHT => expect parser ch 'T' .reqHttpHTT
  | .reqHttpHTT => expect parser ch 'P' .reqHttpHTTP
  | .reqHttpHTTP => expect parser ch '/' .reqFirstHttpMajor
  | .reqFirstHttpMajor => onFirstHttpMajor '1' parser ch .reqHttpMajor
  | .reqHttpMajor => onHttpMajor parser ch .reqFirstHttpMinor
  | .reqFirstHttpMinor => onFirstHttpMinor parser ch .reqHttpMinor
  | .reqHttpMinor => onReqHttpMinor parser ch
  | .reqLineAlmostDone => onReqLineAlmostDone parser ch
  | .headerFieldStart => onHeaderFieldStart parser ch
  | .headerField => onHeaderField parser (ch :: tail)
  | .headerValueDiscardWs => onHeaderValueDiscardWs parser ch
  | .headerValueDiscardWsAlmostDone => expect parser ch LF .headerValueDiscardLws
  | .headerValueDiscardLws => onHeaderValueDiscardLws parser ch
  | .headerValueStart => onHeaderValueStart parser ch
  | .headerValue => onHeaderValue parser (ch :: tail)
  | .headerValueLws => onHeaderValueLws parser ch
  | .headerAlmostDone => onHeaderAlmostDone parser ch 0
  | .chunkSizeStart => onChunkSizeStart parser ch
  | .chunkSize => onChunkSize parser ch
  | .chunkParameters => onChunkParameters parser ch
  | .chunkSizeAlmostDone => onChunkSizeAlmostDone parser ch
  | .headersAlmostDone => onHeadersAlmostDone parser ch
  | .headersDone => onHeadersDone parser ch
  | .chunkData => onChunkData parser (ch :: tail)
  | .chunkDataAlmostDone => onChunkDataAlmostDone parser ch
  | .chunkDataDone => onChunkDataDone parser ch
  | .bodyIdentity => onBodyIdentity parser (ch :: tail)
  | .bodyIdentityEof => onBodyIdentityEof parser (ch :: tail)
  | .messageDone => onMessageDone parser 0

/-- One iteration of the main loop: `COUNT_HEADER_SIZE(1)` while in the headers, then the
switch. -/
def iteration (parser : HttpParser) (ch : UInt8) (tail : List UInt8) : Transition :=
  if parser.state.parsingHeader then
    let parser := parser.addNread 1
    if parser.headerOverflow then .fail parser .HEADER_OVERFLOW [] else dispatch parser ch tail
  else dispatch parser ch tail

/-- One call of a callback. -/
inductive Call
  /-- `on_message_begin`. -/
  | onMessageBegin
  /-- A data callback, with the offset of its span in the buffer and the length of the span. -/
  | onData (kind : SpanKind) (start length : Nat)
  /-- `on_headers_complete`, with the method it reads. -/
  | onHeadersComplete (method : HttpMethod)
  /-- `on_message_complete`. -/
  | onMessageComplete
  deriving DecidableEq, Repr

/-- Where each mark points, if it is set. -/
abbrev Marks := SpanKind → Option Nat

/-- No mark is set. -/
def noMarks : Marks := fun _ => none

/-- The local variables of the main loop and the calls made so far. -/
structure Loop where
  /-- The parser record. -/
  parser : HttpParser
  /-- The offset of `p` in the buffer. -/
  p : Nat
  /-- The marks. -/
  marks : Marks
  /-- The calls made so far. -/
  calls : List Call

/-- The callbacks that `HttpRequestBase::Init` installs: all data callbacks but `on_status`. -/
def SpanKind.installed : SpanKind → Bool
  | .status => false
  | _ => true

/-- `CALLBACK_DATA_(kind, stop - mark, _)`. -/
def Loop.callbackData (l : Loop) (kind : SpanKind) (stop : Nat) : Loop :=
  match l.marks kind with
  | none => l
  | some a =>
    { l with
      marks := Function.update l.marks kind none
      calls := if kind.installed then l.calls ++ [.onData kind a (stop - a)] else l.calls }

/-- Run one macro, in a transition that starts at `l.p`. -/
def Loop.runOp (l : Loop) : Op → Loop
  | .mark kind =>
    if (l.marks kind).isSome then l
    else { l with marks := Function.update l.marks kind (some l.p) }
  | .callbackData kind stop => l.callbackData kind (l.p + stop)
  | .messageBegin => { l with calls := l.calls ++ [.onMessageBegin] }
  | .headersComplete method => { l with calls := l.calls ++ [.onHeadersComplete method] }
  | .messageComplete => { l with calls := l.calls ++ [.onMessageComplete] }

/-- Run the macros of a transition and take over the record it leaves. -/
def Loop.run (l : Loop) (t : Transition) : Loop :=
  { t.ops.foldl Loop.runOp l with parser := t.parser }

/-- How the main loop ends. -/
inductive Outcome
  /-- The buffer is used up. -/
  | done (l : Loop)
  /-- `RETURN(nparsed)` from inside the loop, or from the label `error`. -/
  | returned (l : Loop) (nparsed : Nat)
  /-- A failed assertion. -/
  | abort

/-- The main loop over the bytes from `p` on, of which the first `skip` are already consumed. -/
def mainLoop (l : Loop) : Nat → List UInt8 → Outcome
  | _, [] => .done l
  | skip + 1, _ :: tail => mainLoop l skip tail
  | 0, ch :: tail =>
    let t := iteration l.parser ch tail
    match t.exit with
    | .next extra => mainLoop { l.run t with p := l.p + extra + 1 } extra tail
    | .error off => .returned (l.run t) (l.p + off)
    | .ret consumed => .returned (l.run t) (l.p + consumed)
    | .abort => .abort

/-- The marks that `http_parser_execute` sets before the loop, to resume an open span. -/
def resumeMark : State → Option SpanKind
  | .headerField => some .headerField
  | .headerValue => some .headerValue
  | .reqPath | .reqSchema | .reqSchemaSlash | .reqSchemaSlashSlash | .reqServerStart
  | .reqServer | .reqServerWithAt => some .url
  | .reqQueryStringStart | .reqQueryString => some .queryField
  | .reqQueryValueStart | .reqQueryValue => some .queryValue
  | .reqFragmentStart | .reqFragment => some .fragment
  | .resStatus => some .status
  | _ => none

/-- The loop variables before the first iteration. -/
def Loop.enter (parser : HttpParser) : Loop where
  parser := parser
  p := 0
  marks := fun kind => if resumeMark parser.state = some kind then some 0 else none
  calls := []

/-- The order in which the callbacks for left-over marks run at the end of the buffer. -/
def leftoverOrder : List SpanKind :=
  [.headerField, .headerValue, .url, .body, .status, .queryField, .queryValue, .fragment]

/-- The end-of-buffer assertion: at most one mark is still set. -/
def Loop.atMostOneMark (l : Loop) : Bool :=
  (leftoverOrder.filter fun kind => (l.marks kind).isSome).length ≤ 1

/-- The callbacks for left-over marks. -/
def Loop.flush (l : Loop) : Loop :=
  leftoverOrder.foldl (fun l kind => l.callbackData kind l.p) l

/-- What `http_parser_execute` leaves: the record, the calls it made and its result. -/
structure ExecuteResult where
  /-- The parser record. -/
  parser : HttpParser
  /-- The calls made, in order. -/
  calls : List Call
  /-- The number of bytes parsed. -/
  nparsed : Nat

/-- `http_parser_execute` on an empty buffer, which stands for the end of the connection. -/
def executeEof (parser : HttpParser) : ExecuteResult :=
  match parser.state with
  | .bodyIdentityEof => ⟨parser, [.onMessageComplete], 0⟩
  | .dead | .startReqOrRes | .startRes | .startReq => ⟨parser, [], 0⟩
  | _ => ⟨{ parser with httpErrno := .INVALID_EOF_STATE }, [], 1⟩

/-- `http_parser_execute`. `none` is a failed assertion, which ends the process. -/
def httpParserExecute (parser : HttpParser) (data : List UInt8) : Option ExecuteResult :=
  if parser.httpErrno ≠ .OK then some ⟨parser, [], 0⟩
  else if data.length = 0 then some (executeEof parser)
  else match mainLoop (.enter parser) 0 data with
    | .abort => none
    | .returned l nparsed => some ⟨l.parser, l.calls, nparsed⟩
    | .done l =>
      if l.atMostOneMark then some ⟨l.flush.parser, l.flush.calls, data.length⟩ else none

end MosqCluster.Http
