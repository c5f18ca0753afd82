import MosqCluster.Helper.Json

/-!
# HTTP calls

`helper/http_wrapper.cpp` over `helper/http_client.cpp`. The transfer is done by libcurl, and
anything may come of it. `HttpPost` calls `HttpRespHandler` only after a transfer that completes,
and returns 0 in any case; `HttpResponse::HttpResponse` does not set `status_code_`, which is all
that `Post` looks at. The headers of a response are left out, and what is sent is kept as the
document that is written.

## Main definitions

* `HttpWrapper`, with `setHeader`, `post` and `text`;
* `HttpWrapper.ask`: a call whose reply is read as a JSON document;
* `HttpWrapper.Replies`: a call completes with status 200 and a text.

## Main results

* `HttpWrapper.ask_of_reply` and `HttpWrapper.ask_of_no_reply`: what is done about a reply, and
  without one;
* `HttpWrapper.ask_isOk_iff`: when a call whose reply is looked into returns.
-/

namespace MosqCluster

open Json

/-- What comes of a transfer. -/
inductive Transfer where
  | failed
  | completed (statusCode : Int64) (content : Bytes)
  deriving DecidableEq

/-- What a call meets: the content of uninitialised memory, and what comes of a transfer. -/
structure Network where
  statusCode : Int64
  perform : Bytes → List (Bytes × Bytes) → Json.Value → Transfer

/-- `HttpWrapper`, with its `HttpResponse`. -/
structure HttpWrapper where
  headers : List (Bytes × Bytes)
  statusCode : Int64
  body : Bytes

namespace HttpWrapper

/-- `HttpWrapper::HttpWrapper`. -/
def new (net : Network) : HttpWrapper := ⟨[], net.statusCode, []⟩

/-- `SetHeader`. -/
def setHeader (http : HttpWrapper) (key value : Bytes) : HttpWrapper :=
  { http with headers := http.headers ++ [(key, value)] }

/-- `Post`, with `HttpRespHandler`. -/
def post (http : HttpWrapper) (net : Network) (url : Bytes) (data : JsonDocument) :
    HttpWrapper × Bool :=
  let http := match net.perform (cString url) http.headers data.root with
    | .failed => http
    | .completed statusCode content => { http with statusCode := statusCode, body := content }
  (http, http.statusCode = 200)

/-- `Text`. -/
def text (http : HttpWrapper) : Bytes := http.body

/-- The wrapper of a plugin, with its headers. -/
def json (net : Network) (userAgent : Bytes) : HttpWrapper :=
  (((new net).setHeader (bytes "Connection") (bytes "Close")).setHeader
    (bytes "Content-Type") (bytes "application/json")).setHeader (bytes "User-Agent") userAgent

/-- A call of a plugin: where `Post` returns `true`, the text is read as a document and handled. -/
def ask {β : Type} (http : HttpWrapper) (reader : Reader) (net : Network) (url : Bytes)
    (data : JsonDocument) (handle : JsonDocument → Except Exception β) (otherwise : β) :
    Except Exception β :=
  let (http, ok) := http.post net url data
  if ok then do handle (← JsonDocument.ofText reader http.text) else return otherwise

/-- The call completes with status 200 and a text. -/
def Replies (http : HttpWrapper) (net : Network) (url : Bytes) (data : JsonDocument)
    (content : Bytes) : Prop :=
  net.perform (cString url) http.headers data.root = .completed 200 content

variable {β : Type} {http : HttpWrapper} {reader : Reader} {net : Network} {url content : Bytes}
  {data : JsonDocument} {handle : JsonDocument → Except Exception β} {otherwise : β}

/-- There is one reply to a call. -/
theorem Replies.unique {content' : Bytes} (h : http.Replies net url data content)
    (h' : http.Replies net url data content') : content = content' := by
  have := h.symm.trans h'
  simpa using this

/-- A document of a reply is handled as `handle` does. -/
theorem ask_of_reply (h : http.Replies net url data content) :
    http.ask reader net url data handle otherwise =
      JsonDocument.ofText reader content >>= handle := by
  have hpost : http.post net url data =
      ({ http with statusCode := 200, body := content }, true) := by
    rw [post, h]
    rfl
  rw [ask, hpost]
  rfl

/-- Without a reply nothing is done, not even where the transfer has failed and `status_code_`
happens to be 200: then the text is empty, and there is nothing in the document. -/
theorem ask_of_no_reply (hbody : http.body = []) (hempty : handle {} = .ok otherwise)
    (h : ∀ content, ¬ http.Replies net url data content) :
    http.ask reader net url data handle otherwise = .ok otherwise := by
  rw [ask, post]
  cases htransfer : net.perform (cString url) http.headers data.root with
  | failed =>
    dsimp only
    rw [text, hbody, JsonDocument.ofText_nil]
    split
    · exact hempty
    · rfl
  | completed statusCode content =>
    have hstatus : statusCode ≠ 200 := by
      rintro rfl
      exact h content htransfer
    exact if_neg (by simpa using hstatus)

/-- Where `handle` looks into a document, a call returns if and only if a reply leaves a root with
fields. -/
theorem ask_isOk_iff (hbody : http.body = []) (hempty : handle {} = .ok otherwise)
    (hhandle : ∀ resp, (handle resp).isOk ↔ resp.root.isNullOrObject = true) :
    (http.ask reader net url data handle otherwise).isOk ↔
      ∀ content, http.Replies net url data content →
        JsonDocument.LeavesFields reader content := by
  by_cases hreplies : ∃ content, http.Replies net url data content
  · obtain ⟨content, hreply⟩ := hreplies
    rw [ask_of_reply hreply, JsonDocument.ofText_bind_isOk_iff hhandle]
    refine ⟨fun h content' hreply' => ?_, fun h => h content hreply⟩
    rw [← hreply.unique hreply']
    exact h
  · rw [ask_of_no_reply hbody hempty fun content hreply => hreplies ⟨content, hreply⟩]
    exact iff_of_true rfl fun content hreply => absurd ⟨content, hreply⟩ hreplies

end HttpWrapper

end MosqCluster
