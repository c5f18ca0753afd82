import MosqCluster.Http.Parser.Types

/-!
# Scanning one header line

The two inner loops of `http_parser_execute`: `s_header_field` reads a header name up to the colon,
`s_header_value` reads a header value up to the end of the line. Both run ahead inside one
iteration of the main loop, so each is a recursion over the bytes from `p` on. They return how far
they read, `p - start`, together with the parser record they leave.
-/

namespace MosqCluster.Http

/-- `parser->nread += V`, the first half of `COUNT_HEADER_SIZE(V)`. -/
def HttpParser.addNread (parser : HttpParser) (v : Nat) : HttpParser :=
  { parser with nread := parser.nread + UInt32.ofNat v }

/-- The test of `COUNT_HEADER_SIZE`. -/
def HttpParser.headerOverflow (parser : HttpParser) : Bool :=
  httpMaxHeaderSize < parser.nread.toNat

/-- One step of matching a header name or value against `word`: `index` has just been advanced,
`c` must be the character there, and the last character of `word` completes the match. -/
def matchWord (word : String) (index : BitVec 7) (c : UInt8)
    (miss hit stay : HeaderState) : HeaderState :=
  if (bytes word).length < index.toNat || c ≠ (bytes word).getD index.toNat 0 then miss
  else if index.toNat = (bytes word).length - 1 then hit
  else stay

/-! ## Header names -/

/-- `++parser->index`, then the next step of matching a header name against `word`. -/
def matchName (word : String) (hit : HeaderState) (parser : HttpParser) (c : UInt8) :
    HttpParser :=
  { parser with
    index := parser.index + 1
    headerState := matchWord word (parser.index + 1) c .general hit parser.headerState }

/-- The switch over `header_state` in the loop of `s_header_field`, for the byte `ch` whose token
is `c`. `none` is the failed assertion "Unknown header_state". -/
def headerFieldChar (parser : HttpParser) (ch c : UInt8) : Option HttpParser :=
  match parser.headerState with
  | .general => some parser
  | .C =>
    some { parser with
      index := parser.index + 1
      headerState := if c = 'o' then .CO else .general }
  | .CO =>
    some { parser with
      index := parser.index + 1
      headerState := if c = 'n' then .CON else .general }
  | .CON =>
    some { parser with
      index := parser.index + 1
      headerState :=
        if c = 'n' then .matchingConnection
        else if c = 't' then .matchingContentLength
        else .general }
  | .matchingConnection => some (matchName "connection" .connection parser c)
  | .matchingProxyConnection => some (matchName "proxy-connection" .connection parser c)
  | .matchingContentLength => some (matchName "content-length" .contentLength parser c)
  | .matchingTransferEncoding => some (matchName "transfer-encoding" .transferEncoding parser c)
  | .matchingUpgrade => some (matchName "upgrade" .upgrade parser c)
  | .connection | .contentLength | .transferEncoding | .upgrade =>
    some (if ch ≠ ' ' then { parser with headerState := .general } else parser)
  | _ => none

/-- What the loop of `s_header_field` leaves. -/
structure FieldScan where
  /-- The parser record. -/
  parser : HttpParser
  /-- `p - start`. -/
  count : Nat
  /-- The byte `p` stands on, or `none` at the end of the buffer. -/
  stop : Option UInt8

/-- The loop of `s_header_field` over the bytes from `p` on, with `count` bytes read before. -/
def scanHeaderField (parser : HttpParser) (count : Nat) : List UInt8 → Option FieldScan
  | [] => some ⟨parser, count, none⟩
  | ch :: tail =>
    if token ch = 0 then some ⟨parser, count, some ch⟩
    else (headerFieldChar parser ch (token ch)).bind fun parser =>
      scanHeaderField parser (count + 1) tail

/-! ## Header values -/

/-- The outcome of one byte of a header value. -/
inductive ValueStep
  /-- The loop goes on `skip` bytes past the next one, with `h_state` as given. -/
  | next (parser : HttpParser) (hState : HeaderState) (skip : Nat)
  /-- `SET_ERRNO(e); goto error`. -/
  | error (parser : HttpParser) (e : HttpErrno)
  /-- A failed assertion. -/
  | abort

/-- `++parser->index`, then the next step of matching a header value against `word`. -/
def matchValue (word : String) (miss hit : HeaderState) (parser : HttpParser)
    (hState : HeaderState) (c : UInt8) : ValueStep :=
  .next { parser with index := parser.index + 1 }
    (matchWord word (parser.index + 1) c miss hit hState) 0

/-- A value of a multi-value `Connection` header that has matched `hState` ends at a comma, where
its flag is set, and may be followed by blanks. -/
def connectionValueChar (parser : HttpParser) (hState : HeaderState) (ch : UInt8) : ValueStep :=
  if ch = ',' then
    let flags := match hState with
      | .connectionKeepAlive => { parser.flags with connectionKeepAlive := true }
      | .connectionClose => { parser.flags with connectionClose := true }
      | .connectionUpgrade => { parser.flags with connectionUpgrade := true }
      | _ => parser.flags
    .next { parser with flags := flags, index := 0 } .matchingConnectionTokenStart 0
  else if ch ≠ ' ' then .next parser .matchingConnectionToken 0
  else .next parser hState 0

/-- The case `h_content_length` of the loop of `s_header_value`: one more digit. -/
def contentLengthChar (parser : HttpParser) (hState : HeaderState) (ch : UInt8) : ValueStep :=
  if ch = ' ' then .next parser hState 0
  else if !isNum ch then .error { parser with headerState := hState } .INVALID_CONTENT_LENGTH
  else if (ullongMax - 10) / 10 < parser.contentLength then
    .error { parser with headerState := hState } .INVALID_CONTENT_LENGTH
  else
    .next { parser with contentLength := parser.contentLength * 10 + (ch - 48).toUInt64 } hState 0

/-- The distance from the current byte to the next line end among the first
`HTTP_MAX_HEADER_SIZE` bytes from it on, or to the end of the buffer. -/
def skipToLineEnd (ch : UInt8) (tail : List UInt8) : Nat :=
  match ((ch :: tail).take httpMaxHeaderSize).findIdx? (fun b => b = CR || b = LF) with
  | some i => i - 1
  | none => tail.length

/-- The body of the loop of `s_header_value` for a byte `ch` that is no line end, followed by
`tail`. -/
def headerValueChar (parser : HttpParser) (hState : HeaderState) (ch : UInt8)
    (tail : List UInt8) : ValueStep :=
  if !parser.lenientHttpHeaders && !isHeaderChar ch then .error parser .INVALID_HEADER_TOKEN
  else match hState with
    | .general => .next parser hState (skipToLineEnd ch tail)
    | .connection | .transferEncoding => .abort
    | .contentLength => contentLengthChar parser hState ch
    | .matchingTransferEncodingChunked =>
      matchValue "chunked" .general .transferEncodingChunked parser hState (lower ch)
    | .matchingConnectionTokenStart =>
      let hState :=
        if lower ch = 'k' then .matchingConnectionKeepAlive
        else if lower ch = 'c' then .matchingConnectionClose
        else if lower ch = 'u' then .matchingConnectionUpgrade
        else if token (lower ch) ≠ 0 then .matchingConnectionToken
        else if lower ch = ' ' || lower ch = '\t' then hState
        else .general
      .next parser hState 0
    | .matchingConnectionKeepAlive =>
      matchValue "keep-alive" .matchingConnectionToken .connectionKeepAlive parser hState
        (lower ch)
    | .matchingConnectionClose =>
      matchValue "close" .matchingConnectionToken .connectionClose parser hState (lower ch)
    | .matchingConnectionUpgrade =>
      matchValue "upgrade" .matchingConnectionToken .connectionUpgrade parser hState (lower ch)
    | .matchingConnectionToken =>
      if ch = ',' then .next { parser with index := 0 } .matchingConnectionTokenStart 0
      else .next parser hState 0
    | .transferEncodingChunked =>
      .next parser (if ch ≠ ' ' then .general else hState) 0
    | .connectionKeepAlive | .connectionClose | .connectionUpgrade =>
      connectionValueChar parser hState ch
    | _ => .next { parser with state := .headerValue } .general 0

/-- What the loop of `s_header_value` leaves: the byte `p` stands on, `h_state` and `p - start`. -/
inductive ValueScan
  /-- `p` stands on a CR. -/
  | cr (parser : HttpParser) (hState : HeaderState) (count : Nat)
  /-- `p` stands on an LF. -/
  | lf (parser : HttpParser) (hState : HeaderState) (count : Nat)
  /-- `p` stands at the end of the buffer. -/
  | eob (parser : HttpParser) (hState : HeaderState) (count : Nat)
  /-- `SET_ERRNO(e); goto error`. -/
  | error (parser : HttpParser) (e : HttpErrno) (count : Nat)
  /-- A failed assertion. -/
  | abort

/-- The loop of `s_header_value` over the bytes from `p` on, with `count` bytes read before and
`skip` more of them already passed over. -/
def scanHeaderValue (parser : HttpParser) (hState : HeaderState) (count : Nat) :
    Nat → List UInt8 → ValueScan
  | _, [] => .eob parser hState count
  | skip + 1, _ :: tail => scanHeaderValue parser hState (count + 1) skip tail
  | 0, ch :: tail =>
    if ch = CR then .cr parser hState count
    else if ch = LF then .lf parser hState count
    else match headerValueChar parser hState ch tail with
      | .next parser hState skip => scanHeaderValue parser hState (count + 1) skip tail
      | .error parser e => .error parser e count
      | .abort => .abort

end MosqCluster.Http
