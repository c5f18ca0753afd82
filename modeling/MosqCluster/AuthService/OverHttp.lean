import MosqCluster.AuthPlugin.Context
import MosqCluster.AuthService.Routes
import MosqCluster.Helper.JsonDocuments
import MosqCluster.Http.Response
import MosqCluster.Server.Arrival
import MosqCluster.Server.Routes

/-!
# The auth service over HTTP

The service as a plugin reaches it: the plugin writes its document and posts it, the server reads
the request from its buffers, finds the route, and sends the text of the response, from which the
plugin reads the reply.

libcurl and the network are a parameter: what request libcurl prints for a call of `HttpPost`, how
the bytes are cut into the buffers that the server reads, and what libcurl makes of the bytes that
come back. A response is taken to be transmitted as a whole, and one request to be handled at a
time.

## Main definitions

* `AuthServiceRoutes.initTable` and `serve`: the routes of the service, and an `HttpTask`;
* `Curl`, with `Curl.Delivers` and `Curl.Reads`: a transport, and what is asked of it;
* `Curl.exchange` and `Curl.network`: a call of a plugin, and the network that it meets.

## Main results

* `Curl.exchange_of_route`: a call that is delivered is answered by its route;
* `mosquittoAuthUnpwdCheck_overHttp` and `mosquittoAuthAclCheck_overHttp`: the verdicts that the
  broker is given over HTTP.
-/

namespace MosqCluster

open Json Http Server

/-- The number of a method. -/
def Http.HttpMethod.number : HttpMethod → Int32
  | .DELETE => 0 | .GET => 1 | .HEAD => 2 | .POST => 3 | .PUT => 4 | .CONNECT => 5
  | .OPTIONS => 6 | .TRACE => 7 | .COPY => 8 | .LOCK => 9 | .MKCOL => 10 | .MOVE => 11
  | .PROPFIND => 12 | .PROPPATCH => 13 | .SEARCH => 14 | .UNLOCK => 15 | .BIND => 16
  | .REBIND => 17 | .UNBIND => 18 | .ACL => 19 | .REPORT => 20 | .MKACTIVITY => 21
  | .CHECKOUT => 22 | .MERGE => 23 | .MSEARCH => 24 | .NOTIFY => 25 | .SUBSCRIBE => 26
  | .UNSUBSCRIBE => 27 | .PATCH => 28 | .PURGE => 29 | .MKCALENDAR => 30 | .LINK => 31
  | .UNLINK => 32

/-! ## Routes -/

/-- What a handler has before it: the manager and the response, unless an exception was thrown. -/
abbrev Handling := Except Exception (MosquittoContextManager × HttpResponse)

/-- The handlers of the service. -/
inductive AuthServiceRoute
  | routeInitialize
  | routeCheckUser
  | routeCheckAcl

namespace AuthServiceRoute

/-- The URL of a handler. -/
def url : AuthServiceRoute → Bytes
  | routeInitialize => bytes "/mosquitto/initialize"
  | routeCheckUser => bytes "/mosquitto/checkuser"
  | routeCheckAcl => bytes "/mosquitto/checkacl"

/-- `route_key`, with `HTTP_POST`. -/
def routeKey (route : AuthServiceRoute) : RouteKey := ⟨HttpMethod.number .POST, route.url⟩

/-- `Process`. -/
def process (route : AuthServiceRoute) (reader : Reader) (mgr : MosquittoContextManager)
    (req : HttpRequest) (resp : HttpResponse) : Handling :=
  match route with
  | routeInitialize => RouteInitialize.process reader mgr req resp
  | routeCheckUser => return (mgr, ← RouteCheckUser.process reader mgr req resp)
  | routeCheckAcl => return (mgr, ← RouteCheckAcl.process reader mgr req resp)

end AuthServiceRoute

/-- `AuthServiceRoutes::InitTable`. -/
def AuthServiceRoutes.initTable : Routes AuthServiceRoute :=
  [AuthServiceRoute.routeInitialize, .routeCheckUser, .routeCheckAcl].foldl
    (Routes.registerProc AuthServiceRoute.routeKey) []

/-- What the routes ask a request and a response for. The method of a request that is finished has
been set. -/
def handlingInterface : Interface HttpRequest Handling where
  method req := (req.method.map HttpMethod.number).getD 0
  url req := req.url
  setStatus handling code := handling.map fun p => (p.1, p.2.setStatus code)

/-- The response that is printed. -/
def HttpResponse.printed (realToString : Option Rat → Bytes) (resp : HttpResponse) :
    Http.HttpResponse where
  statusCode := resp.statusCode
  headers := resp.headers
  content := (resp.content.map fun root => JsonDocument.write realToString ⟨root⟩ false).getD []

/-- `HttpTask::Run` up to `SendResponse`. The inner `none` is a response that does not fit in an
`xstring`. -/
def serve (reader : Reader) (realToString : Option Rat → Bytes) (mgr : MosquittoContextManager)
    (req : HttpRequest) : Except Exception (MosquittoContextManager × Option Bytes) :=
  (AuthServiceRoutes.initTable.process handlingInterface
    (fun route req handling =>
      (handling >>= fun p => route.process reader p.1 req p.2, 0)) req (.ok (mgr, .new))).1.map
    fun p => (p.1, (p.2.printed realToString).message)

/-- The request for which `OnRead` pushes a task. -/
def Http.HttpRequest.dispatched (r : HttpRequest) : List Bytes → Option HttpRequest
  | [] => none
  | data :: rest => (r.append data).bind fun r => if r.finished then some r else r.dispatched rest

variable {reader : Reader} {realToString : Option Rat → Bytes} {mgr mgr' : MosquittoContextManager}
  {req : HttpRequest} {resp : HttpResponse} {route : AuthServiceRoute}

/-- A request in buffers is dispatched. -/
theorem Http.HttpRequest.Arrives.dispatched_eq {r r' : HttpRequest} {cutting : List Bytes}
    (h : r.Arrives cutting r') : r.dispatched cutting = some r' := by
  induction h with
  | last happend hfinished => simp [HttpRequest.dispatched, happend, hfinished]
  | more happend hfinished _ ih => simp [HttpRequest.dispatched, happend, hfinished, ih]

/-- The handler of a route is found by its URL. -/
theorem lastRegistered_initTable (route : AuthServiceRoute) :
    Routes.lastRegistered ([AuthServiceRoute.routeInitialize, .routeCheckUser, .routeCheckAcl].map
      fun route => (route.routeKey, some route)) route.routeKey = some route := by
  cases route <;> rfl

/-- A request that is posted to the URL of a route is handled by it. -/
theorem serve_of_route (hmethod : req.method = some .POST) (hurl : req.url = route.url) :
    serve reader realToString mgr req = (route.process reader mgr req .new).map fun p =>
      (p.1, (p.2.printed realToString).message) := by
  have hinit : AuthServiceRoutes.initTable = Routes.ofCalls
      ([AuthServiceRoute.routeInitialize, .routeCheckUser, .routeCheckAcl].map
        fun route => (route.routeKey, some route)) := rfl
  have hnumber : handlingInterface.method req = HttpMethod.number .POST := by
    show (req.method.map HttpMethod.number).getD 0 = _
    rw [hmethod]
    rfl
  have hhead : handlingInterface.method req ≠ httpHead := by
    rw [hnumber]
    decide
  have hkey : (⟨handlingInterface.method req, handlingInterface.url req⟩ : RouteKey) =
      route.routeKey := by
    rw [hnumber, AuthServiceRoute.routeKey, ← hurl]
    rfl
  rw [serve, hinit, Routes.process_of_ne_head _ _ _ hhead, hkey, lastRegistered_initTable]
  rfl

/-! ## Documents that are sent -/

/-- A document that is read back from its text. -/
structure Sendable (realToString : Option Rat → Bytes) (d : JsonDocument) : Prop where
  fits : d.root.Fits stackLimit
  counts : (JsonDocument.writer realToString false).Counts d.root

/-! ## Responses -/

/-- The response of a route that answers with a document. -/
def answered (doc : JsonDocument) : HttpResponse :=
  (MosqAuthRouteProc.process .new).setContent doc

/-- The calls that make it. -/
def answerSettings (content : Bytes) : List Setting :=
  [.setStatus 200, .setHeader (bytes "Content-Type") (bytes "application/json"),
    .setHeader (bytes "Server") (bytes "mosquitto_auth_service/1.0"), .setContent content]

/-- The digits of a size. -/
theorem length_decimal {n : Nat} (h : n < 10 ^ 10) : (decimal n).length ≤ 10 := by
  have hdigits : (decimal n).length = (Nat.toDigits 10 n).length := by
    show (bytes (toString n)).length = _
    rw [bytes, List.length_map, ← Nat.toList_repr]
    rfl
  rw [hdigits]
  exact (Nat.length_toDigits_le_iff (by decide) (by decide)).mpr h

/-- The size of such a response, without its content and the digits of its length. -/
theorem size_configured_answer (content : Bytes) :
    (Http.HttpResponse.configured (answerSettings content)).size =
      120 + (decimal content.length).length + content.length := by
  let fixed := (Http.HttpResponse.configured (answerSettings [])).statusLine ::
    (Http.HttpResponse.configured (answerSettings [])).headers.map Http.headerLine
  have hlines : (Http.HttpResponse.configured (answerSettings content)).lines =
      fixed ++ [contentLengthLine content.length] := rfl
  have hfixed : (fixed.map (·.length + 2)).sum = 101 := by decide +kernel
  have hname : (bytes "Content-Length:").length = 15 := by decide
  have hcontent : (Http.HttpResponse.configured (answerSettings content)).content = content := rfl
  rw [Http.HttpResponse.size, hlines, hcontent, List.map_append, List.sum_append, hfixed,
    List.map_cons, List.map_nil, List.sum_cons, List.sum_nil, contentLengthLine,
    List.length_append, hname]
  omega

/-- It is framed where its content is a text that fits. -/
theorem exists_framed_answered (realToString : Option Rat → Bytes) {doc : JsonDocument}
    (hdoc : Sendable realToString doc)
    (hfits : (doc.write realToString false).length ≤ 2 ^ 31 - 200) :
    ∃ text, ((answered doc).printed realToString).message = some text ∧
      ((answered doc).printed realToString).Framed text := by
  have hprinted : (answered doc).printed realToString =
      Http.HttpResponse.configured (answerSettings (doc.write realToString false)) := rfl
  have hproper : ∀ c ∈ answerSettings (doc.write realToString false), c.Proper := by
    intro c hc
    simp only [answerSettings, List.mem_cons, List.not_mem_nil, or_false] at hc
    rcases hc with rfl | rfl | rfl | rfl
    · trivial
    · exact ⟨by decide, by decide, by decide⟩
    · exact ⟨by decide, by decide, by decide⟩
    · trivial
  rw [hprinted]
  refine (Http.HttpResponse.framed_message_iff _ hproper).mpr ⟨?_, ?_⟩
  · exact JsonDocument.zero_notMem_write hdoc.fits.writable hdoc.counts
  · have hdigits := length_decimal (n := (doc.write realToString false).length) (by omega)
    rw [size_configured_answer]
    omega

/-! ## Calls over the network -/

/-- libcurl and the network. -/
structure Curl where
  /-- The request that is printed for the URL, the headers and the data of a call. -/
  request : Bytes → List (Bytes × Bytes) → Bytes → RequestText
  /-- The buffers in which the server reads what is sent. -/
  cut : Bytes → List Bytes
  /-- What comes of the bytes that are sent back. -/
  read : Bytes → Transfer

/-- A call is printed as a request that posts its data to a path, and the server reads the request
in buffers of which all but the last end between two spans. -/
structure Curl.Delivers (curl : Curl) (path url : Bytes) (headers : List (Bytes × Bytes))
    (content : Bytes) : Prop where
  proper : (curl.request url headers content).Proper
  method : (curl.request url headers content).method = .POST
  path : (curl.request url headers content).path = path
  body : (curl.request url headers content).body = content
  flatten : (curl.cut (curl.request url headers content).text).flatten =
    (curl.request url headers content).text
  ne_nil : ∀ data ∈ curl.cut (curl.request url headers content).text, data ≠ []
  cuts : cutsBetweenSpans (httpParserInit .request)
    (curl.cut (curl.request url headers content).text)

/-- A response that is framed as it should be is read with its status code and its content. -/
def Curl.Reads (curl : Curl) : Prop :=
  ∀ (resp : Http.HttpResponse) (text : Bytes), resp.statusCode = 200 → resp.Framed text →
    curl.read text = .completed 200 resp.content

/-- The manager after a call, and what comes of the transfer. -/
def Curl.exchange (curl : Curl) (reader : Reader) (realToString : Option Rat → Bytes)
    (mgr : MosquittoContextManager) (url : Bytes) (headers : List (Bytes × Bytes)) (root : Value) :
    MosquittoContextManager × Transfer :=
  let sent := (curl.request url headers (JsonDocument.write realToString ⟨root⟩ false)).text
  match (HttpRequest.fresh.dispatched (curl.cut sent)).map (serve reader realToString mgr) with
  | some (.ok (mgr, some reply)) => (mgr, curl.read reply)
  | some (.ok (mgr, none)) => (mgr, .failed)
  | _ => (mgr, .failed)

/-- The network that a plugin meets; `statusCode` is the content of uninitialised memory. -/
def Curl.network (curl : Curl) (reader : Reader) (realToString : Option Rat → Bytes)
    (mgr : MosquittoContextManager) (statusCode : Int64) : Network where
  statusCode := statusCode
  perform url headers root := (curl.exchange reader realToString mgr url headers root).2

variable {curl : Curl} {url : Bytes} {headers : List (Bytes × Bytes)} {data doc : JsonDocument}
  {toDouble : Bytes → Option (Option Rat)}

/-- A call that is delivered is answered by its route. -/
theorem Curl.exchange_of_route (hreads : curl.Reads)
    (hdelivers : curl.Delivers route.url url headers (data.write realToString false))
    (hprocess : ∀ req : HttpRequest, req.body = data.write realToString false →
      route.process reader mgr req .new = .ok (mgr', answered doc))
    (hdoc : Sendable realToString doc)
    (hfits : (doc.write realToString false).length ≤ 2 ^ 31 - 200) :
    curl.exchange reader realToString mgr url headers data.root =
      (mgr', .completed 200 (doc.write realToString false)) := by
  obtain ⟨r, harrives, hmessage⟩ := RequestText.exists_arrives hdelivers.proper hdelivers.flatten
    hdelivers.ne_nil hdelivers.cuts
  have hmethod : r.method = some .POST :=
    (congrArg Http.Message.method hmessage).trans (congrArg some hdelivers.method)
  have hurl : r.url = route.url := (congrArg Http.Message.url hmessage).trans hdelivers.path
  have hbody : r.body = data.write realToString false :=
    (congrArg Http.Message.body hmessage).trans hdelivers.body
  obtain ⟨text, htext, hframed⟩ := exists_framed_answered realToString hdoc hfits
  have hserve : serve reader realToString mgr r = .ok (mgr', some text) := by
    rw [serve_of_route hmethod hurl, hprocess r hbody, ← htext]
    rfl
  rw [exchange, harrives.dispatched_eq, Option.map_some, hserve]
  exact congrArg (Prod.mk mgr') (hreads _ text rfl hframed)

/-! ## Documents that are read -/

/-- A document is read as one that no look-up tells from what was sent. -/
theorem exists_ofText_eq (toDouble : Bytes → Option (Option Rat))
    (hdoc : Sendable realToString doc) :
    ∃ read, JsonDocument.ofText (.jsonCpp toDouble) (doc.write realToString false) = .ok read ∧
      JsonDocument.Agrees read doc := by
  refine ⟨⟨doc.root.canonical⟩, ?_, JsonDocument.agrees_canonical doc⟩
  rw [JsonDocument.ofText, JsonDocument.parse_written hdoc.fits.writable hdoc.counts
    hdoc.fits.depth]
  rfl

/-- So is the document in a body. -/
theorem exists_bodyDocument_eq (toDouble : Bytes → Option (Option Rat))
    (hdata : Sendable realToString data) (hbody : req.body = data.write realToString false) :
    ∃ read, bodyDocument (.jsonCpp toDouble) req = .ok read ∧ JsonDocument.Agrees read data := by
  rw [bodyDocument, hbody, cString_of_not_mem (JsonDocument.zero_notMem_write hdata.fits.writable
    hdata.counts)]
  exact exists_ofText_eq toDouble hdata

/-- The answer of a check. -/
def checkAnswer (granted : Bool) : JsonDocument :=
  ⟨.object [(bytes "code", .int (if granted then 0 else -1)),
    (bytes "message", .string (bytes (if granted then "success" else "failed")))]⟩

/-- A string that the reader takes. -/
def IsShort (str : Bytes) : Prop := str.length ≤ 2 ^ 31 - 1 - 4 - 1

instance (str : Bytes) : Decidable (IsShort str) := inferInstanceAs (Decidable (_ ≤ _))

theorem fits_string {str : Bytes} (h : IsShort str) : (Value.string str).Fits 1 :=
  ⟨h, Nat.le_refl 1⟩

/-- A document none of whose members is nested. -/
theorem fits_flat {members : List (Bytes × Value)}
    (hkeys : (members.map Prod.fst).Pairwise (· < ·) ∧
      ∀ key ∈ members.map Prod.fst, key.length < 2 ^ 30)
    (hvalues : ∀ v ∈ members.map Prod.snd, v.Fits 1) : (Value.object members).Fits stackLimit := by
  have hfits : (Value.object members).Fits 2 := Value.fits_object_iff.mpr ⟨hkeys.1, fun p hp =>
    ⟨hkeys.2 p.1 (List.mem_map_of_mem hp), hvalues p.2 (List.mem_map_of_mem hp)⟩⟩
  exact hfits.mono (by decide)

theorem sendable_checkAnswer (realToString : Option Rat → Bytes) (granted : Bool) :
    Sendable realToString (checkAnswer granted) := by
  refine ⟨fits_flat ?_ ?_, trivial, trivial, trivial⟩
  · show [bytes "code", bytes "message"].Pairwise (· < ·) ∧
      ∀ key ∈ [bytes "code", bytes "message"], key.length < 2 ^ 30
    decide
  · rw [List.map_cons, List.map_cons, List.map_nil, List.forall_mem_cons,
      List.forall_mem_singleton]
    cases granted
    · exact ⟨Value.fits_int (-1), fits_string (by decide)⟩
    · exact ⟨Value.fits_int 0, fits_string (by decide)⟩

/-- `RouteCheckUser` on a document that is sent. -/
theorem RouteCheckUser.process_of_write (toDouble : Bytes → Option (Option Rat))
    (hdata : Sendable realToString data) (hbody : req.body = data.write realToString false) :
    RouteCheckUser.process (.jsonCpp toDouble) mgr req .new =
      (RouteCheckUser.granted mgr data).map fun granted => answered (checkAnswer granted) := by
  obtain ⟨read, hread, hagrees⟩ := exists_bodyDocument_eq toDouble hdata hbody
  have hgranted : granted mgr read = granted mgr data := by
    simp only [granted, hagrees.getString]
  rw [process, hread]
  change (granted mgr read >>= _) = _
  rw [hgranted]
  cases granted mgr data with
  | error e => rfl
  | ok granted => exact answer_eq granted _

/-- `RouteCheckAcl` on a document that is sent. -/
theorem RouteCheckAcl.process_of_write (toDouble : Bytes → Option (Option Rat))
    (hdata : Sendable realToString data) (hbody : req.body = data.write realToString false) :
    RouteCheckAcl.process (.jsonCpp toDouble) mgr req .new =
      (RouteCheckAcl.granted mgr data).map fun granted => answered (checkAnswer granted) := by
  obtain ⟨read, hread, hagrees⟩ := exists_bodyDocument_eq toDouble hdata hbody
  have hgranted : granted mgr read = granted mgr data := by
    simp only [granted, hagrees.getString, hagrees.getInt]
  rw [process, hread]
  change (granted mgr read >>= _) = _
  rw [hgranted]
  cases granted mgr data with
  | error e => rfl
  | ok granted => exact answer_eq granted _

/-! ## Checks -/

/-- The text of an answer to a check. -/
theorem write_checkAnswer (realToString : Option Rat → Bytes) (granted : Bool) :
    (checkAnswer granted).write realToString false =
      bytes (if granted then "\x7b\"code\":0,\"message\":\"success\"\x7d"
        else "\x7b\"code\":-1,\"message\":\"failed\"\x7d") := by
  have hzero : valueToString 0 = bytes "0" := by decide +kernel
  have hfailed : valueToString (-1) = bytes "-1" := by decide +kernel
  cases granted
  all_goals
    simp only [checkAnswer, JsonDocument.write, JsonDocument.writer, StreamWriter.write,
      StreamWriter.writeValue, StreamWriter.writeMembers, newStreamWriter, Bool.false_eq_true,
      if_false, if_true, hzero, hfailed]
    rfl

namespace AuthPluginContext

variable {ctx : AuthPluginContext} {granted : Bool}

/-- What a plugin makes of the answer to a check. -/
theorem checkReply_checkAnswer (toDouble : Bytes → Option (Option Rat))
    (realToString : Option Rat → Bytes) (granted : Bool) :
    JsonDocument.ofText (.jsonCpp toDouble) ((checkAnswer granted).write realToString false) >>=
        checkReply = .ok (if granted then .noError else .failed) := by
  obtain ⟨read, hread, hagrees⟩ :=
    exists_ofText_eq toDouble (sendable_checkAnswer realToString granted)
  rw [hread]
  change checkReply read = _
  rw [checkReply, hagrees.getInt, JsonDocument.getInt, JsonDocument.getAs_of_key (by decide) rfl]
  cases granted <;> rfl

/-- A check over HTTP. -/
theorem check_overHttp {client : Bytes} {makeData : Bytes → Except Exception JsonDocument}
    (statusCode : Int64) (hreads : curl.Reads) (hurl : url ≠ [])
    (hclient : ¬ bytes "mosqcluster" <+: cString client)
    (hdata : makeData (cString client) = .ok data)
    (hdelivers : curl.Delivers route.url (cString url)
      (wrapper (curl.network (.jsonCpp toDouble) realToString mgr statusCode)).headers
      (data.write realToString false))
    (hprocess : ∀ req : HttpRequest, req.body = data.write realToString false →
      route.process (.jsonCpp toDouble) mgr req .new =
        .ok (mgr, answered (checkAnswer granted))) :
    check (.jsonCpp toDouble) (curl.network (.jsonCpp toDouble) realToString mgr statusCode) url
      client makeData = .ok (if granted then .noError else .failed) := by
  have hfits : ((checkAnswer granted).write realToString false).length ≤ 2 ^ 31 - 200 := by
    rw [write_checkAnswer]
    cases granted <;> decide
  have hexchange := curl.exchange_of_route hreads hdelivers hprocess
    (sendable_checkAnswer realToString granted) hfits
  have hreply : (wrapper (curl.network (.jsonCpp toDouble) realToString mgr statusCode)).Replies
      (curl.network (.jsonCpp toDouble) realToString mgr statusCode) url data
      ((checkAnswer granted).write realToString false) := congrArg Prod.snd hexchange
  rw [check_of_not_clusterClient hurl hclient hdata, HttpWrapper.ask_of_reply hreply,
    checkReply_checkAnswer]

/-- The root of the document that `CheckUser` sends. -/
def userRoot (ctx : AuthPluginContext) (username password clientid : Bytes) : Value :=
  .object [(bytes "clientid", .string clientid), (bytes "name", .string ctx.nodeName),
    (bytes "password", .string password), (bytes "username", .string username)]

theorem userData_eq (ctx : AuthPluginContext) (username password clientid : Bytes) :
    ctx.userData username password clientid =
      .ok ⟨ctx.userRoot username password clientid⟩ := by
  rw [userData, JsonDocument.set_bind_of_key (by decide), JsonDocument.set_bind_of_key (by decide),
    JsonDocument.set_bind_of_key (by decide)]
  exact JsonDocument.set_of_key (by decide) _

theorem sendable_userRoot (realToString : Option Rat → Bytes)
    {username password clientid : Bytes} (hname : IsShort ctx.nodeName)
    (hclientid : IsShort clientid) (husername : IsShort username) (hpassword : IsShort password) :
    Sendable realToString ⟨ctx.userRoot username password clientid⟩ := by
  let keys := [bytes "clientid", bytes "name", bytes "password", bytes "username"]
  have hkeys : keys.Pairwise (· < ·) ∧ ∀ key ∈ keys, key.length < 2 ^ 30 := by decide
  refine ⟨fits_flat hkeys ?_, trivial, trivial, trivial, trivial, trivial⟩
  simp only [List.map_cons, List.map_nil, List.forall_mem_cons]
  exact ⟨fits_string hclientid, fits_string hname, fits_string hpassword, fits_string husername,
    fun v hv => by cases hv⟩

/-- The root of the document that `CheckAcl` sends. -/
def aclRoot (ctx : AuthPluginContext) (access : Int32) (topic clientid : Bytes) : Value :=
  .object [(bytes "access", .int access.toInt), (bytes "clientid", .string clientid),
    (bytes "name", .string ctx.nodeName), (bytes "topic", .string topic)]

theorem aclData_eq (ctx : AuthPluginContext) (access : Int32) (topic clientid : Bytes) :
    ctx.aclData access topic clientid = .ok ⟨ctx.aclRoot access topic clientid⟩ := by
  rw [aclData, JsonDocument.set_bind_of_key (by decide), JsonDocument.set_bind_of_key (by decide),
    JsonDocument.set_bind_of_key (by decide)]
  exact JsonDocument.set_of_key (by decide) _

theorem sendable_aclRoot (realToString : Option Rat → Bytes) (access : Int32)
    {topic clientid : Bytes} (hname : IsShort ctx.nodeName) (hclientid : IsShort clientid)
    (htopic : IsShort topic) : Sendable realToString ⟨ctx.aclRoot access topic clientid⟩ := by
  let keys := [bytes "access", bytes "clientid", bytes "name", bytes "topic"]
  have hkeys : keys.Pairwise (· < ·) ∧ ∀ key ∈ keys, key.length < 2 ^ 30 := by decide
  refine ⟨fits_flat hkeys ?_, trivial, trivial, trivial, trivial, trivial⟩
  simp only [List.map_cons, List.map_nil, List.forall_mem_cons]
  exact ⟨Value.fits_int access, fits_string hclientid, fits_string hname, fits_string htopic,
    fun v hv => by cases hv⟩

end AuthPluginContext

/-- The strings of a check are not too long for the reader. -/
structure ShortStrings (ctx : AuthPluginContext) (client : Bytes) (strings : List Bytes) :
    Prop where
  nodeName : IsShort ctx.nodeName
  client : IsShort (cString client)
  strings : ∀ str ∈ strings, IsShort (cString str)

variable {ctx : AuthPluginContext} {client : Bytes}

/-- A user is let in over HTTP if and only if the service trusts the name and the password, or the
prefix of the name, where `lock_` of its manager is `NULL`. -/
theorem mosquittoAuthUnpwdCheck_overHttp (toDouble : Bytes → Option (Option Rat))
    (realToString : Option Rat → Bytes) (mgr : MosquittoContextManager) (statusCode : Int64)
    (username password : Bytes) (hlock : mgr.lock = 0) (hreads : curl.Reads)
    (hurl : ctx.checkuserUrl ≠ []) (hclient : ¬ bytes "mosqcluster" <+: cString client)
    (hshort : ShortStrings ctx client [username, password])
    (hdelivers : ∀ data, ctx.userData (cString username) (cString password) (cString client) =
      .ok data → curl.Delivers AuthServiceRoute.routeCheckUser.url (cString ctx.checkuserUrl)
        (AuthPluginContext.wrapper
          (curl.network (.jsonCpp toDouble) realToString mgr statusCode)).headers
        (data.write realToString false)) :
    mosquittoAuthUnpwdCheck (.jsonCpp toDouble)
        (curl.network (.jsonCpp toDouble) realToString mgr statusCode) ctx client (some username)
        (some password) =
      .ok (if cString username = mgr.trustUsername ∧ cString password = mgr.trustPassword ∨
        mgr.trustPrefix <+: cString username then .success else .aclDenied) := by
  have hdata := ctx.userData_eq (cString username) (cString password) (cString client)
  have hsendable := AuthPluginContext.sendable_userRoot realToString hshort.nodeName hshort.client
    (hshort.strings username (by simp)) (hshort.strings password (by simp))
  -- The route finds its four fields in the body, which is what the plugin has written.
  have hprocess : ∀ req : HttpRequest, req.body = JsonDocument.write realToString
      ⟨ctx.userRoot (cString username) (cString password) (cString client)⟩ false →
        AuthServiceRoute.routeCheckUser.process (.jsonCpp toDouble) mgr req .new =
          .ok (mgr, answered (checkAnswer (mgr.trusts (cString username) (cString password)))) := by
    intro req hbody
    have hgranted : RouteCheckUser.granted mgr ⟨ctx.userRoot (cString username) (cString password)
        (cString client)⟩ = .ok (mgr.trusts (cString username) (cString password)) := by
      rw [RouteCheckUser.granted_eq rfl]
      exact MosquittoContextManager.checkUser_eq hlock
    rw [AuthServiceRoute.process, RouteCheckUser.process_of_write toDouble hsendable hbody,
      hgranted]
    rfl
  have hcheck := AuthPluginContext.check_overHttp statusCode hreads hurl hclient hdata
    (hdelivers _ hdata) hprocess
  -- The verdict is the code of the answer, mapped to one of the broker.
  have htrust := @MosquittoContextManager.trusts_iff mgr (cString username) (cString password)
  have hverdict : mosquittoAuthUnpwdCheck (.jsonCpp toDouble)
      (curl.network (.jsonCpp toDouble) realToString mgr statusCode) ctx client (some username)
      (some password) = mosqErr <$> AuthPluginContext.check (.jsonCpp toDouble)
        (curl.network (.jsonCpp toDouble) realToString mgr statusCode) ctx.checkuserUrl client
        (ctx.userData (cString username) (cString password)) := rfl
  rw [hverdict, hcheck]
  cases hgranted : mgr.trusts (cString username) (cString password) with
  | true => rw [if_pos (htrust.mp hgranted)]; rfl
  | false => rw [if_neg fun h => Bool.false_ne_true (hgranted.symm.trans (htrust.mpr h))]; rfl

/-- A topic is allowed over HTTP, whatever it is, where `lock_` of the manager is `NULL`. -/
theorem mosquittoAuthAclCheck_overHttp (toDouble : Bytes → Option (Option Rat))
    (realToString : Option Rat → Bytes) (mgr : MosquittoContextManager) (statusCode : Int64)
    (access : Int32) (topic : Bytes) (hlock : mgr.lock = 0) (hreads : curl.Reads)
    (hurl : ctx.checkaclUrl ≠ []) (hclient : ¬ bytes "mosqcluster" <+: cString client)
    (hshort : ShortStrings ctx client [topic])
    (hdelivers : ∀ data, ctx.aclData access (cString topic) (cString client) = .ok data →
      curl.Delivers AuthServiceRoute.routeCheckAcl.url (cString ctx.checkaclUrl)
        (AuthPluginContext.wrapper
          (curl.network (.jsonCpp toDouble) realToString mgr statusCode)).headers
        (data.write realToString false)) :
    mosquittoAuthAclCheck (.jsonCpp toDouble)
        (curl.network (.jsonCpp toDouble) realToString mgr statusCode) ctx client access
        (some topic) = .ok .success := by
  have hdata := ctx.aclData_eq access (cString topic) (cString client)
  have hsendable := AuthPluginContext.sendable_aclRoot realToString access hshort.nodeName
    hshort.client (hshort.strings topic (by simp))
  -- The access is written and read back as the same `int`.
  have haccess : ((ctx.aclRoot access (cString topic) (cString client)).member?
      (bytes "access")).bind Value.int? = some (Int32.ofInt access.toInt) := by
    have hmin := Int32.le_toInt access
    have hmax := Int32.toInt_lt access
    exact if_pos (by omega)
  have hgranted : RouteCheckAcl.granted mgr
      ⟨ctx.aclRoot access (cString topic) (cString client)⟩ = .ok true := by
    rw [RouteCheckAcl.granted_eq rfl, haccess]
    exact MosquittoContextManager.checkAcl_eq hlock
  -- The route finds its four fields in the body, as for a user.
  have hprocess : ∀ req : HttpRequest, req.body = JsonDocument.write realToString
      ⟨ctx.aclRoot access (cString topic) (cString client)⟩ false →
        AuthServiceRoute.routeCheckAcl.process (.jsonCpp toDouble) mgr req .new =
          .ok (mgr, answered (checkAnswer true)) := by
    intro req hbody
    have hwrite := @RouteCheckAcl.process_of_write realToString mgr req
      ⟨ctx.aclRoot access (cString topic) (cString client)⟩ toDouble hsendable hbody
    rw [hgranted] at hwrite
    rw [AuthServiceRoute.process, hwrite]
    rfl
  have hcheck := AuthPluginContext.check_overHttp statusCode hreads hurl hclient hdata
    (hdelivers _ hdata) hprocess
  have hverdict : mosquittoAuthAclCheck (.jsonCpp toDouble)
      (curl.network (.jsonCpp toDouble) realToString mgr statusCode) ctx client access
      (some topic) = mosqErr <$> AuthPluginContext.check (.jsonCpp toDouble)
        (curl.network (.jsonCpp toDouble) realToString mgr statusCode) ctx.checkaclUrl client
        (ctx.aclData access (cString topic)) := rfl
  rw [hverdict, hcheck]
  rfl

/-! ## A plain client -/

/-- The path of a URL, behind its scheme and its host. -/
def pathOf (url : Bytes) : Bytes := (url.drop (bytes "http://").length).dropWhile (· ≠ 47)

/-- The host of a URL. -/
def hostOf (url : Bytes) : Bytes := (url.drop (bytes "http://").length).takeWhile (· ≠ 47)

/-- The status code in a status line. -/
def statusOf (line : Bytes) : Int64 := .ofNat (readDecimal 0 ((line.drop 9).take 3))

/-- A client that posts to the path of a URL in one buffer, and reads what comes back. -/
def plainCurl : Curl where
  request url headers content :=
    ⟨.POST, pathOf url,
      ⟨bytes "Host", [32], hostOf url⟩ :: ⟨bytes "Accept", [32], bytes "*/*"⟩ ::
        (headers.map fun header => ⟨header.1, [], header.2⟩) ++
          [⟨bytes "Content-Length", [32], decimal content.length⟩], content⟩
  cut text := [text]
  read text := match readHead [] text with
    | some (line :: _, body) => .completed (statusOf line) body
    | _ => .failed

theorem plainCurl_reads : plainCurl.Reads := by
  rintro resp text hstatus ⟨fields, body, hread, -, -, rfl⟩
  have hline : resp.statusLine = bytes "HTTP/1.1 200 OK" := by
    rw [Http.HttpResponse.statusLine, hstatus]
    decide +kernel
  have hcode : statusOf (bytes "HTTP/1.1 200 OK") = 200 := by decide
  rw [plainCurl]
  dsimp only
  rw [hread, hline]
  dsimp only
  rw [hcode]

/-- A plugin, and a service that trusts one user. -/
def smallContext : AuthPluginContext :=
  ⟨bytes "n:1883", bytes "http://h:2020/mosquitto/checkuser",
    bytes "http://h:2020/mosquitto/checkacl"⟩

def smallManager : MosquittoContextManager := ⟨bytes "u", bytes "p", bytes "dev-", 0, []⟩

/-- No number is printed. -/
def noReal (_ : Option Rat) : Bytes := []

/-- The line that announces the length of what is posted. -/
theorem proper_contentLength (n : Nat) :
    HeaderLine.Proper ⟨bytes "Content-Length", [32], decimal n⟩ := by
  obtain ⟨-, hdigits, -⟩ := decimal_spec n
  have hdigit : ∀ k < 256, isNum (.ofNat k) →
      isValueByte (.ofNat k) ∧ UInt8.ofNat k ≠ ' ' ∧ UInt8.ofNat k ≠ '\t' := by decide +kernel
  have hplain : ∀ ch ∈ decimal n, isValueByte ch ∧ ch ≠ ' ' ∧ ch ≠ '\t' := by
    intro ch hch
    have h := hdigit ch.toNat ch.toNat_lt
    rw [UInt8.ofNat_toNat] at h
    exact h (hdigits ch hch)
  -- all but the value is as in a line without one
  have hempty : HeaderLine.Proper ⟨bytes "Content-Length", [32], []⟩ := by decide
  exact { hempty with
    value := fun ch hch => (hplain ch hch).1
    value_head := fun ch hch => (hplain ch (List.mem_of_mem_head? hch)).2 }

/-- A plain client delivers its calls to a service at a path where its headers are proper, and all
is short enough. -/
theorem plainCurl_delivers {path url content host : Bytes} {headers : List (Bytes × Bytes)}
    (hurl : hostOf url = host ∧ pathOf url = path)
    (hhost : HeaderLine.Proper ⟨bytes "Host", [32], host⟩)
    (hpath : ∃ p, path = 47 :: p ∧ ∀ ch ∈ p, isUrlChar ch)
    (hheaders : ∀ header ∈ headers, HeaderLine.Proper ⟨header.1, [], header.2⟩ ∧
      HeaderLine.isContentLength ⟨header.1, [], header.2⟩ = false)
    (hlength : (plainCurl.request url headers content).text.length ≤ httpMaxHeaderSize) :
    plainCurl.Delivers path url headers content where
  proper := by
    have haccept : HeaderLine.Proper ⟨bytes "Accept", [32], bytes "*/*"⟩ := by decide
    have hlines : ∀ f ∈ (plainCurl.request url headers content).lines, f.Proper := by
      intro f hf
      simp only [plainCurl, hurl.1, List.cons_append, List.mem_cons, List.mem_append,
        List.mem_map, List.not_mem_nil, or_false] at hf
      rcases hf with rfl | rfl | ⟨header, hheader, rfl⟩ | rfl
      · exact hhost
      · exact haccept
      · exact (hheaders header hheader).1
      · exact proper_contentLength content.length
    have hnone : (headers.map fun header => (⟨header.1, [], header.2⟩ : HeaderLine)).filter
        HeaderLine.isContentLength = [] := by
      refine List.filter_eq_nil_iff.mpr fun f hf => ?_
      obtain ⟨header, hheader, rfl⟩ := List.mem_map.mp hf
      exact Bool.eq_false_iff.mp (hheaders header hheader).2
    have hannounces : (plainCurl.request url headers content).lines.filter
        HeaderLine.isContentLength =
          [⟨bytes "Content-Length", [32], decimal content.length⟩] := by
      show List.filter _ (_ ++ [_]) = _
      rw [List.filter_append, List.filter_cons_of_neg, List.filter_cons_of_neg, hnone]
      · rfl
      · exact fun h => absurd (of_decide_eq_true h)
          (show (bytes "Accept").map token ≠ bytes "content-length" by decide)
      · exact fun h => absurd (of_decide_eq_true h)
          (show (bytes "Host").map token ≠ bytes "content-length" by decide)
    rw [RequestText.text, List.length_append] at hlength
    have htarget : (plainCurl.request url headers content).path = path := hurl.2
    refine ⟨(fun h => by cases h), by rwa [htarget], hlines, ?_, by omega, ?_⟩
    · rw [RequestText.Announces, hannounces]
      rfl
    · show content.length ≤ maxContentLength
      have hsize : httpMaxHeaderSize ≤ maxContentLength := by decide
      exact (Nat.le_of_add_left_le hlength).trans hsize
  method := rfl
  path := hurl.2
  body := rfl
  flatten := List.append_nil _
  ne_nil data hdata := by
    rw [List.mem_singleton.mp hdata]
    exact RequestText.text_ne_nil
  cuts := rfl

/-- The headers of the plugin. -/
theorem proper_wrapper (net : Network) : ∀ header ∈ (AuthPluginContext.wrapper net).headers,
    HeaderLine.Proper ⟨header.1, [], header.2⟩ ∧
      HeaderLine.isContentLength ⟨header.1, [], header.2⟩ = false := by
  intro header hheader
  simp only [AuthPluginContext.wrapper, HttpWrapper.json, HttpWrapper.setHeader, HttpWrapper.new,
    List.nil_append, List.cons_append, List.mem_cons, List.not_mem_nil, or_false] at hheader
  rcases hheader with rfl | rfl | rfl
  all_goals exact ⟨by decide, by decide⟩

/-- A user who is trusted is let in. -/
theorem mosquittoAuthUnpwdCheck_overHttp_small :
    mosquittoAuthUnpwdCheck (.jsonCpp fun _ => none)
      (plainCurl.network (.jsonCpp fun _ => none) noReal smallManager 0) smallContext (bytes "c")
      (some (bytes "u")) (some (bytes "p")) = .ok .success := by
  have htrusted : cString (bytes "u") = smallManager.trustUsername ∧
      cString (bytes "p") = smallManager.trustPassword := by decide
  rw [mosquittoAuthUnpwdCheck_overHttp (fun _ => none) noReal smallManager 0 (bytes "u") (bytes "p")
    rfl plainCurl_reads (by decide) (by decide) ⟨by decide, by decide, by decide⟩,
    if_pos (Or.inl htrusted)]
  refine fun data hdata => plainCurl_delivers ⟨rfl, rfl⟩ ?_ ?_ (proper_wrapper _) ?_
  · decide
  · exact ⟨bytes "mosquitto/checkuser", rfl, List.all_eq_true.mp (by decide)⟩
  · rw [AuthPluginContext.userData_eq] at hdata
    obtain rfl := Except.ok.inj hdata
    decide +kernel

/-- A topic is allowed. -/
theorem mosquittoAuthAclCheck_overHttp_small :
    mosquittoAuthAclCheck (.jsonCpp fun _ => none)
      (plainCurl.network (.jsonCpp fun _ => none) noReal smallManager 0) smallContext (bytes "c") 2
      (some (bytes "t")) = .ok .success := by
  refine mosquittoAuthAclCheck_overHttp (fun _ => none) noReal smallManager 0 2 (bytes "t")
    rfl plainCurl_reads (by decide) (by decide) ⟨by decide, by decide, by decide⟩
    fun data hdata => plainCurl_delivers ⟨rfl, rfl⟩ ?_ ?_ (proper_wrapper _) ?_
  · decide
  · exact ⟨bytes "mosquitto/checkacl", rfl, List.all_eq_true.mp (by decide)⟩
  · rw [AuthPluginContext.aclData_eq] at hdata
    obtain rfl := Except.ok.inj hdata
    decide +kernel

end MosqCluster
