import MosqCluster.Helper.XString

/-!
# The state of the HTTP parser

The data of `server/http_parser.h` and `server/http_parser.cpp`: the enumerations, the parser
record, the character classes in strict mode (`HTTP_PARSER_STRICT` is `1`) and the functions that
read the record only. A byte is a `UInt8`; the bit fields and the sized integers of the record keep
their width. The `flags` bit set is a structure with one `Bool` per bit.

## Main definitions

* `State`, `HeaderState`, `HttpMethod`, `HttpErrno`: the enumerations of the parser;
* `HttpParser`: the record, and `httpParserInit`, its initial value;
* `httpShouldKeepAlive` and `newMessage`: which state follows a complete message.
-/

namespace MosqCluster.Http

/-- A character constant stands for its byte, as in the source. -/
instance coeCharUInt8 : Coe Char UInt8 := ⟨Char.toUInt8⟩

/-! ## Character classes -/

/-- Carriage return. -/
abbrev CR : UInt8 := 13

/-- Line feed. -/
abbrev LF : UInt8 := 10

/-- `LOWER(c)`: set the bit that separates the two letter cases. -/
def lower (c : UInt8) : UInt8 := c ||| 0x20

/-- `IS_ALPHA(c)`. -/
def isAlpha (c : UInt8) : Bool := (97 : UInt8) ≤ lower c && lower c ≤ 122

/-- `IS_NUM(c)`. -/
def isNum (c : UInt8) : Bool := (48 : UInt8) ≤ c && c ≤ 57

/-- `IS_ALPHANUM(c)`. -/
def isAlphanum (c : UInt8) : Bool := isAlpha c || isNum c

/-- `IS_MARK(c)`. -/
def isMark (c : UInt8) : Bool := c ∈ bytes "-_.!~*'()"

/-- `IS_USERINFO_CHAR(c)`. -/
def isUserinfoChar (c : UInt8) : Bool := isAlphanum c || isMark c || c ∈ bytes "%;:&=+$,"

/-- `IS_DELIMITER(c)`. -/
def isDelimiter (c : UInt8) : Bool := c = '&' || c = '#'

/-- `IS_URL_CHAR(c)` in strict mode: the bit map `normal_url_char` holds the printable ASCII
characters except space, `#` and `?`. -/
def isUrlChar (c : UInt8) : Bool := (33 : UInt8) ≤ c && c ≤ 126 && c ≠ '#' && c ≠ '?'

/-- The table `tokens`, which is `TOKEN` in strict mode: the lower-cased character, or `0` where
the character is no token. -/
def token (c : UInt8) : UInt8 :=
  if isAlpha c then lower c
  else if isNum c || c ∈ bytes "!#$%&'*+-.^_`|~" then c
  else 0

/-- The table `unhex`, with `none` for `-1`. Only the first 128 of its 256 entries are written
down, so the others are `0`. -/
def unhex (c : UInt8) : Option UInt64 :=
  if isNum c then some (c - 48).toUInt64
  else if (97 : UInt8) ≤ lower c && lower c ≤ 102 then some (lower c - 87).toUInt64
  -- A byte that is not ASCII is read as the digit `0`.
  else if 128 ≤ c then some 0
  else none

/-- `IS_HEADER_CHAR(ch)`. -/
def isHeaderChar (ch : UInt8) : Bool := ch = CR || ch = LF || ch = 9 || (31 < ch && ch ≠ 127)

/-! ## Enumerations -/

/-- `enum http_parser_type`. -/
inductive ParserType
  | request
  | response
  | both
  deriving DecidableEq, Repr

/-- `enum state`: what the parser expects next. -/
inductive State
  | dead
  | startReqOrRes
  | resOrRespH
  | startRes
  | resH
  | resHT
  | resHTT
  | resHTTP
  | resFirstHttpMajor
  | resHttpMajor
  | resFirstHttpMinor
  | resHttpMinor
  | resFirstStatusCode
  | resStatusCode
  | resStatusStart
  | resStatus
  | resLineAlmostDone
  | startReq
  | reqMethod
  | reqSpacesBeforeUrl
  | reqSchema
  | reqSchemaSlash
  | reqSchemaSlashSlash
  | reqServerStart
  | reqServer
  | reqServerWithAt
  | reqPath
  | reqQueryStringStart
  | reqQueryString
  | reqQueryValueStart
  | reqQueryValue
  | reqFragmentStart
  | reqFragment
  | reqHttpStart
  | reqHttpH
  | reqHttpHT
  | reqHttpHTT
  | reqHttpHTTP
  | reqFirstHttpMajor
  | reqHttpMajor
  | reqFirstHttpMinor
  | reqHttpMinor
  | reqLineAlmostDone
  | headerFieldStart
  | headerField
  | headerValueDiscardWs
  | headerValueDiscardWsAlmostDone
  | headerValueDiscardLws
  | headerValueStart
  | headerValue
  | headerValueLws
  | headerAlmostDone
  | chunkSizeStart
  | chunkSize
  | chunkParameters
  | chunkSizeAlmostDone
  | headersAlmostDone
  | headersDone
  | chunkData
  | chunkDataAlmostDone
  | chunkDataDone
  | bodyIdentity
  | bodyIdentityEof
  | messageDone
  deriving DecidableEq, Repr

/-- `PARSING_HEADER(state)`: the states up to `s_headers_done` in the order of the enumeration. -/
def State.parsingHeader : State → Bool
  | chunkData | chunkDataAlmostDone | chunkDataDone | bodyIdentity | bodyIdentityEof
  | messageDone => false
  | _ => true

/-- `enum header_states`: which header the current one may turn out to be. -/
inductive HeaderState
  | general
  | C
  | CO
  | CON
  | matchingConnection
  | matchingProxyConnection
  | matchingContentLength
  | matchingTransferEncoding
  | matchingUpgrade
  | connection
  | contentLength
  | transferEncoding
  | upgrade
  | matchingTransferEncodingChunked
  | matchingConnectionTokenStart
  | matchingConnectionKeepAlive
  | matchingConnectionClose
  | matchingConnectionUpgrade
  | matchingConnectionToken
  | transferEncodingChunked
  | connectionKeepAlive
  | connectionClose
  | connectionUpgrade
  deriving DecidableEq, Repr

/-- `enum http_method`, in the order of `HTTP_METHOD_MAP`. -/
inductive HttpMethod
  | DELETE
  | GET
  | HEAD
  | POST
  | PUT
  | CONNECT
  | OPTIONS
  | TRACE
  | COPY
  | LOCK
  | MKCOL
  | MOVE
  | PROPFIND
  | PROPPATCH
  | SEARCH
  | UNLOCK
  | BIND
  | REBIND
  | UNBIND
  | ACL
  | REPORT
  | MKACTIVITY
  | CHECKOUT
  | MERGE
  | MSEARCH
  | NOTIFY
  | SUBSCRIBE
  | UNSUBSCRIBE
  | PATCH
  | PURGE
  | MKCALENDAR
  | LINK
  | UNLINK
  deriving DecidableEq, Repr

/-- The table `method_strings`. -/
def methodStrings : HttpMethod → String
  | .DELETE => "DELETE"
  | .GET => "GET"
  | .HEAD => "HEAD"
  | .POST => "POST"
  | .PUT => "PUT"
  | .CONNECT => "CONNECT"
  | .OPTIONS => "OPTIONS"
  | .TRACE => "TRACE"
  | .COPY => "COPY"
  | .LOCK => "LOCK"
  | .MKCOL => "MKCOL"
  | .MOVE => "MOVE"
  | .PROPFIND => "PROPFIND"
  | .PROPPATCH => "PROPPATCH"
  | .SEARCH => "SEARCH"
  | .UNLOCK => "UNLOCK"
  | .BIND => "BIND"
  | .REBIND => "REBIND"
  | .UNBIND => "UNBIND"
  | .ACL => "ACL"
  | .REPORT => "REPORT"
  | .MKACTIVITY => "MKACTIVITY"
  | .CHECKOUT => "CHECKOUT"
  | .MERGE => "MERGE"
  | .MSEARCH => "M-SEARCH"
  | .NOTIFY => "NOTIFY"
  | .SUBSCRIBE => "SUBSCRIBE"
  | .UNSUBSCRIBE => "UNSUBSCRIBE"
  | .PATCH => "PATCH"
  | .PURGE => "PURGE"
  | .MKCALENDAR => "MKCALENDAR"
  | .LINK => "LINK"
  | .UNLINK => "UNLINK"

/-- The values of `enum http_errno` that the parser sets under callbacks that return `0`. -/
inductive HttpErrno
  | OK
  | INVALID_EOF_STATE
  | HEADER_OVERFLOW
  | CLOSED_CONNECTION
  | INVALID_VERSION
  | INVALID_STATUS
  | INVALID_METHOD
  | INVALID_URL
  | LF_EXPECTED
  | INVALID_HEADER_TOKEN
  | INVALID_CONTENT_LENGTH
  | UNEXPECTED_CONTENT_LENGTH
  | INVALID_CHUNK_SIZE
  | INVALID_CONSTANT
  | STRICT
  deriving DecidableEq, Repr

/-! ## The parser record -/

/-- The bit set `flags`. -/
structure Flags where
  /-- `F_CHUNKED`. -/
  chunked : Bool := false
  /-- `F_CONNECTION_KEEP_ALIVE`. -/
  connectionKeepAlive : Bool := false
  /-- `F_CONNECTION_CLOSE`. -/
  connectionClose : Bool := false
  /-- `F_CONNECTION_UPGRADE`. -/
  connectionUpgrade : Bool := false
  /-- `F_TRAILING`. -/
  trailing : Bool := false
  /-- `F_UPGRADE`. -/
  upgrade : Bool := false
  /-- `F_SKIPBODY`. -/
  skipbody : Bool := false
  /-- `F_CONTENTLENGTH`. -/
  contentLength : Bool := false
  deriving DecidableEq, Repr

/-- `struct http_parser`, without the user pointer `data`. -/
structure HttpParser where
  /-- Whether the parser reads requests or responses. -/
  type : ParserType
  /-- The flags of the current message. -/
  flags : Flags
  /-- The current state. -/
  state : State
  /-- The header the current one may turn out to be. -/
  headerState : HeaderState
  /-- Index into the current matcher, a 7-bit field. -/
  index : BitVec 7
  /-- Whether header values may hold control characters. -/
  lenientHttpHeaders : Bool
  /-- Bytes of header read so far. -/
  nread : UInt32
  /-- Bytes of the body, or of the chunk, still to come. -/
  contentLength : UInt64
  /-- The major version of the message. -/
  httpMajor : UInt16
  /-- The minor version of the message. -/
  httpMinor : UInt16
  /-- The status code of a response. -/
  statusCode : UInt16
  /-- The method of a request. -/
  method : HttpMethod
  /-- The error the parser stopped with. -/
  httpErrno : HttpErrno
  /-- Whether the rest of the connection is in another protocol. -/
  upgrade : Bool
  deriving DecidableEq, Repr

/-- `http_parser_init`: every field is zero but the type and the state. -/
def httpParserInit (t : ParserType) : HttpParser where
  type := t
  flags := {}
  state := match t with
    | .request => .startReq
    | .response => .startRes
    | .both => .startReqOrRes
  headerState := .general
  index := 0
  lenientHttpHeaders := false
  nread := 0
  contentLength := 0
  httpMajor := 0
  httpMinor := 0
  statusCode := 0
  method := .DELETE
  httpErrno := .OK
  upgrade := false

/-- `ULLONG_MAX`, the content length of a message that names none. -/
def ullongMax : UInt64 := 0xFFFFFFFFFFFFFFFF

/-- `HTTP_MAX_HEADER_SIZE`. -/
def httpMaxHeaderSize : Nat := 80 * 1024

/-- `http_message_needs_eof`: whether only the end of the connection ends the message. -/
def httpMessageNeedsEof (parser : HttpParser) : Bool :=
  if parser.type = .request then false
  else if parser.statusCode / 100 = 1 || parser.statusCode = 204 || parser.statusCode = 304
      || parser.flags.skipbody then false
  else if parser.flags.chunked || parser.contentLength ≠ ullongMax then false
  else true

/-- `http_should_keep_alive`: whether another message may follow on the connection. -/
def httpShouldKeepAlive (parser : HttpParser) : Bool :=
  if parser.httpMajor > 0 && parser.httpMinor > 0 then
    if parser.flags.connectionClose then false else !httpMessageNeedsEof parser
  else if !parser.flags.connectionKeepAlive then false
  else !httpMessageNeedsEof parser

/-- `start_state`. -/
def startState (parser : HttpParser) : State :=
  if parser.type = .request then .startReq else .startRes

/-- `NEW_MESSAGE()` in strict mode. -/
def newMessage (parser : HttpParser) : State :=
  if httpShouldKeepAlive parser then startState parser else .dead

end MosqCluster.Http
