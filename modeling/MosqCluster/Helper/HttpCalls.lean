import MosqCluster.Helper.HttpHeaders
import MosqCluster.Helper.HttpWrapper

/-!
# Sequences of HTTP calls

`Get`, `Post` and `Text` of `helper/http_wrapper.cpp`, with what `HttpOpen` of
`helper/http_client.cpp` does about a transfer. `HttpRespHandler` is called only after a transfer
that completes. Where one fails, the fields of `response_` keep what the call before has left there,
or what the memory held that `HttpResponse::HttpResponse` does not set.

What is sent is left to libcurl: a transfer fails, or completes in any way.

## Main definitions

* `HttpCalls.HttpWrapper`, with `get`, `post` and `text`;
* `HttpCalls.HttpWrapper.NeverStale`: each call of a sequence gives what comes of its own transfer.

## Main results

* `HttpCalls.canSend_iff`: the headers for which a call returns;
* `HttpCalls.HttpWrapper.returns_run`: what a sequence of calls gives;
* `HttpCalls.HttpWrapper.neverStale_iff`: when that comes of their own transfers;
* `HttpCalls.HttpWrapper.post_simulates`: the calls of the plugins.
-/

namespace MosqCluster

open hlp Occurrences

namespace StringMultiMap

/-- A turn of the loop of `StringMultiMap::Split`. -/
def splitEntry (assign_key : Bytes) (value_ : StringMultiMap) (entry : Bytes) : StringMultiMap :=
  match find entry assign_key 0 with
  | none => value_
  | some fpos =>
    value_.append (substr entry 0 fpos) (entry.drop (fpos + assign_key.length))

/-- `StringMultiMap::Split`. The number of the pieces is an `int`. -/
def split (values sp assign_key : Bytes) : Execution StringMultiMap :=
  if values.isEmpty then .pure []
  else
    (StringVector.split values sp).bind fun vt =>
      .pure ((vt.take (Int32.ofNat vt.length).toInt.toNat).foldl (splitEntry assign_key) [])

end StringMultiMap

namespace HttpCalls

/-- What comes of a transfer. -/
inductive Reply where
  | failed
  | completed (status_code : Int64) (headers content : Bytes)

/-- `HttpResponse`. -/
structure HttpResponse where
  status_code_ : Int64
  body_ : Bytes
  headers_ : StringMultiMap

/-- `HttpWrapper`. -/
structure HttpWrapper where
  headers_ : StringMultiMap
  response_ : HttpResponse

/-- `HttpRespHandler`. -/
def httpRespHandler (status_code : Int64) (headers content : Bytes) : Execution HttpResponse :=
  (StringMultiMap.split (cString headers) (bytes "\r\n") (bytes ":")).bind fun headers_ =>
    .pure ⟨status_code, content, headers_⟩

/-- `HttpOpen`: `response_` after the transfer. -/
def httpOpen (response_ : HttpResponse) : Reply → Execution HttpResponse
  | .failed => .pure response_
  | .completed status_code headers content => httpRespHandler status_code headers content

namespace HttpWrapper

/-- `HttpWrapper::HttpWrapper`, for what the memory of `status_code_` holds. -/
def new (status_code_ : Int64) : HttpWrapper := ⟨[], ⟨status_code_, [], []⟩⟩

/-- `SetHeader`. -/
def setHeader (http : HttpWrapper) (key value : Bytes) : HttpWrapper :=
  { http with headers_ := http.headers_.append key value }

/-- What `Get` and `Post` have in common. -/
def request (http : HttpWrapper) (reply : Reply) : Execution (HttpWrapper × Bool) :=
  (sendHeaders http.headers_).bind fun _ =>
    (httpOpen http.response_ reply).bind fun response_ =>
      .pure ({ http with response_ := response_ }, response_.status_code_ = 200)

/-- `Get`, with `HttpGet`. -/
def get (http : HttpWrapper) (reply : Reply) : Execution (HttpWrapper × Bool) := http.request reply

/-- `Post`, with `HttpPost`. -/
def post (http : HttpWrapper) (reply : Reply) : Execution (HttpWrapper × Bool) := http.request reply

/-- `Text`. -/
def text (http : HttpWrapper) : Bytes := http.response_.body_

/-- A call, with what comes of its transfer. -/
inductive Call where
  | get (reply : Reply)
  | post (reply : Reply)

/-- What comes of the transfer of a call. -/
def Call.reply : Call → Reply
  | .get reply | .post reply => reply

/-- A call. -/
def call (http : HttpWrapper) : Call → Execution (HttpWrapper × Bool)
  | .get reply => http.get reply
  | .post reply => http.post reply

/-- A sequence of calls: what each returns, and the text after it. -/
def run (http : HttpWrapper) : List Call → Execution (List (Bool × Bytes))
  | [] => .pure []
  | c :: calls =>
    (http.call c).bind fun (http, ok) =>
      (http.run calls).bind fun results => .pure ((ok, http.text) :: results)

/-- What a call is to give: whether its transfer has completed with status 200, and the body, which
is empty where the transfer has failed. -/
def Call.result (c : Call) : Bool × Bytes :=
  match c.reply with
  | .failed => (false, [])
  | .completed status_code _ content => (status_code = 200, content)

/-- Each call gives what comes of its own transfer. -/
def NeverStale (http : HttpWrapper) (calls : List Call) : Prop :=
  (http.run calls).Returns (calls.map Call.result)

end HttpWrapper

/-- There are headers, and each of their lines leaves room in the buffer for a zero byte. -/
def CanSend (headers_ : StringMultiMap) : Prop :=
  headers_ ≠ [] ∧
    ∀ line ∈ pieces (bytes "\r\n") (cString ((bytes "\r\n").intercalate (headers_.map headerLine))),
      line.length < lineSize

/-- A status and a body. -/
abbrev Fields := Int64 × Bytes

/-- The fields after a transfer. -/
def Fields.after (fields : Fields) : Reply → Fields
  | .failed => fields
  | .completed status_code _ content => (status_code, content)

/-- Where a transfer fails, the transfer that has completed last, or the memory before, has left no
status 200 and no body. -/
def FailsFresh : Fields → List HttpWrapper.Call → Prop
  | _, [] => True
  | fields, c :: calls =>
    (c.reply = .failed → fields.1 ≠ 200 ∧ fields.2 = []) ∧ FailsFresh (fields.after c.reply) calls

/-! ## What can be sent -/

/-- A block is taken apart if and only if each line fits the buffer. -/
theorem exists_returns_httpSetHeader_iff (block : Bytes) (request_headers : List Bytes) :
    (∃ lines, (Execution.loop httpSetHeaderTurn (some block, request_headers)).Returns lines) ↔
      ∀ line ∈ pieces (bytes "\r\n") block, line.length < lineSize := by
  induction block using cut_induction crlf_ne_nil generalizing request_headers with
  | last block hnone =>
    rw [pieces_of_none hnone, List.forall_mem_singleton]
    by_cases hempty : block = []
    · subst hempty
      exact iff_of_true ⟨_, Execution.returns_loop_of_done rfl⟩ (by decide)
    · -- the last line is copied with the zero byte behind it
      have hturn : httpSetHeaderTurn (some block, request_headers) =
          if lineSize < block.length + 1 then .fault
          else .next (none, handOn request_headers block) := by
        rw [httpSetHeaderTurn, if_neg (by simpa using hempty), hnone]
      by_cases hlong : lineSize < block.length + 1
      · rw [if_pos hlong] at hturn
        refine iff_of_false ?_ (by omega)
        rintro ⟨lines, hreturns⟩
        exact (Execution.faults_loop_of_fault hturn).not_returns hreturns
      · rw [if_neg hlong] at hturn
        refine iff_of_true ⟨handOn request_headers block, ?_⟩ (by omega)
        exact (Execution.returns_loop_of_next hturn).mpr (Execution.returns_loop_of_done rfl)
  | cut block before after hcut ih =>
    rw [pieces_of_cut crlf_ne_nil hcut, List.forall_mem_cons]
    have hne : block ≠ [] := by
      rintro rfl
      exact absurd (length_lt_of_cut crlf_ne_nil hcut) (Nat.not_lt_zero _)
    -- a line before a line end is copied without one, into a buffer of zero bytes
    have hturn : httpSetHeaderTurn (some block, request_headers) =
        if lineSize ≤ before.length then .fault
        else .next (some after, handOn request_headers before) := by
      rw [httpSetHeaderTurn, if_neg (by simpa using hne), hcut]
    by_cases hlong : lineSize ≤ before.length
    · rw [if_pos hlong] at hturn
      refine iff_of_false ?_ fun h => absurd h.1 (Nat.not_lt.mpr hlong)
      rintro ⟨lines, hreturns⟩
      exact (Execution.faults_loop_of_fault hturn).not_returns hreturns
    · rw [if_neg hlong] at hturn
      rw [and_iff_right (Nat.lt_of_not_le hlong), ← ih (handOn request_headers before)]
      exact exists_congr fun lines => Execution.returns_loop_of_next hturn

/-- The headers are sent if and only if there are some and each line fits the buffer. -/
theorem canSend_iff {headers_ : StringMultiMap} :
    (∃ lines, (sendHeaders headers_).Returns lines) ↔ CanSend headers_ := by
  by_cases hne : headers_ = []
  · subst hne
    refine iff_of_false ?_ fun h => h.1 rfl
    rintro ⟨lines, hreturns⟩
    exact faults_sendHeaders_nil.not_returns hreturns
  · have hstring : headers_.toString (bytes "\r\n") (bytes ":") false =
        some ((bytes "\r\n").intercalate (headers_.map headerLine)) :=
      joinLoop_eq (bytes "\r\n") [] (by simpa using hne)
    rw [sendHeaders, hstring, CanSend, and_iff_right hne]
    exact exists_returns_httpSetHeader_iff _ []

/-! ## A call -/

/-- The headers of a response are split, whatever they are. -/
theorem exists_returns_split (values : Bytes) :
    ∃ value_, (StringMultiMap.split values (bytes "\r\n") (bytes ":")).Returns value_ := by
  rw [StringMultiMap.split]
  split_ifs with hempty
  · exact ⟨_, Execution.returns_pure.mpr rfl⟩
  · exact ⟨_, (returns_split crlf_ne_nil values).bind.mpr (Execution.returns_pure.mpr rfl)⟩

/-- The fields of `response_` that `Get`, `Post` and `Text` look at. -/
def HttpResponse.fields (response_ : HttpResponse) : Fields :=
  (response_.status_code_, response_.body_)

/-- A transfer is over, and the fields are set where it completes. -/
theorem exists_returns_httpOpen (response_ : HttpResponse) (reply : Reply) :
    ∃ response', (httpOpen response_ reply).Returns response' ∧
      response'.fields = response_.fields.after reply := by
  match reply with
  | .failed => exact ⟨response_, Execution.returns_pure.mpr rfl, rfl⟩
  | .completed status_code headers content =>
    obtain ⟨headers_, hsplit⟩ := exists_returns_split (cString headers)
    refine ⟨⟨status_code, content, headers_⟩, ?_, rfl⟩
    exact hsplit.bind.mpr (Execution.returns_pure.mpr rfl)

namespace HttpWrapper

variable {http : HttpWrapper}

/-- A call takes its result from the fields. -/
theorem exists_returns_call (hsend : CanSend http.headers_) (c : Call) :
    ∃ response', (http.call c).Returns
        ({ http with response_ := response' }, response'.status_code_ = 200) ∧
      response'.fields = http.response_.fields.after c.reply := by
  obtain ⟨lines, hlines⟩ := canSend_iff.mpr hsend
  obtain ⟨response', hopen, hfields⟩ := exists_returns_httpOpen http.response_ c.reply
  have hrequest : (http.request c.reply).Returns
      ({ http with response_ := response' }, response'.status_code_ = 200) :=
    hlines.bind.mpr (hopen.bind.mpr (Execution.returns_pure.mpr rfl))
  refine ⟨response', ?_, hfields⟩
  match c with
  | .get reply => exact hrequest
  | .post reply => exact hrequest

/-- What the calls of a sequence give, from the fields that are there before. -/
def observed : Fields → List Call → List (Bool × Bytes)
  | _, [] => []
  | fields, c :: calls =>
    let fields := fields.after c.reply
    (fields.1 = 200, fields.2) :: observed fields calls

/-- Where the headers can be sent, every sequence of calls returns. -/
theorem returns_run (hsend : CanSend http.headers_) (calls : List Call) :
    (http.run calls).Returns (observed http.response_.fields calls) := by
  induction calls generalizing http with
  | nil => exact Execution.returns_pure.mpr rfl
  | cons c calls ih =>
    obtain ⟨response', hcall, hfields⟩ := exists_returns_call hsend c
    have hrest := @ih { http with response_ := response' } hsend
    rw [run, hcall.bind, hrest.bind, Execution.returns_pure, observed, ← hfields]
    rfl

/-- Where they cannot, no call returns. -/
theorem not_returns_run (hsend : ¬ CanSend http.headers_) (c : Call) (calls : List Call)
    (results : List (Bool × Bytes)) : ¬ (http.run (c :: calls)).Returns results := by
  intro hreturns
  obtain ⟨result, hcall, -⟩ := Execution.returns_bind.mp hreturns
  have hrequest : ∃ r, (http.request c.reply).Returns r := by
    match c, hcall with
    | .get reply, hcall => exact ⟨_, hcall⟩
    | .post reply, hcall => exact ⟨_, hcall⟩
  obtain ⟨result, hresult⟩ := hrequest
  obtain ⟨lines, hlines, -⟩ := Execution.returns_bind.mp hresult
  exact hsend (canSend_iff.mp ⟨lines, hlines⟩)

/-- What is given comes of the transfers of the calls, where each one that fails finds no status 200
and no body. -/
theorem observed_eq_iff (fields : Fields) (calls : List Call) :
    observed fields calls = calls.map Call.result ↔ FailsFresh fields calls := by
  induction calls generalizing fields with
  | nil => exact iff_of_true rfl trivial
  | cons c calls ih =>
    rw [observed, List.map_cons, List.cons.injEq, ih, FailsFresh]
    refine and_congr_left fun _ => ?_
    cases hreply : c.reply with
    | failed =>
      rw [Call.result, hreply, Prod.mk.injEq, decide_eq_false_iff_not]
      exact ⟨fun h _ => h, fun h => h rfl⟩
    | completed status_code headers content =>
      rw [Call.result, hreply]
      exact iff_of_true rfl fun hfailed => by simp at hfailed

/-- Each call of a sequence gives what comes of its own transfer, if and only if the headers can be
sent and each transfer that fails finds no status 200 and no body. -/
theorem neverStale_iff (http : HttpWrapper) (calls : List Call) :
    http.NeverStale calls ↔
      (calls = [] ∨ CanSend http.headers_) ∧ FailsFresh http.response_.fields calls := by
  match calls with
  | [] => exact iff_of_true (Execution.returns_pure.mpr rfl) ⟨.inl rfl, trivial⟩
  | c :: calls =>
    rw [or_iff_right (by simp)]
    by_cases hsend : CanSend http.headers_
    · -- every call returns, and what it gives is compared with what its transfer came to
      rw [and_iff_right hsend, ← observed_eq_iff]
      have hreturns := returns_run hsend (c :: calls)
      constructor
      · intro hfresh
        exact hreturns.unique hfresh
      · intro heq
        rwa [NeverStale, ← heq]
    · exact iff_of_false (not_returns_run hsend c calls _) fun h => hsend h.1

/-- One header. -/
theorem canSend_accept : CanSend ((new 0).setHeader (bytes "Accept") (bytes "a")).headers_ := by
  have hblock : (bytes "\r\n").intercalate
      (((new 0).setHeader (bytes "Accept") (bytes "a")).headers_.map headerLine) =
      bytes "Accept:a" := by decide
  refine ⟨by decide, ?_⟩
  rw [hblock, pieces_of_none (by decide)]
  decide

/-- After a call that completes, one fails. -/
theorem not_neverStale_failed :
    ¬ ∀ (http : HttpWrapper) (calls : List Call),
      CanSend http.headers_ → http.NeverStale calls := by
  intro h
  have hstale := h _ [.get (.completed 200 [] (bytes "x")), .get .failed] canSend_accept
  have hresults := (returns_run canSend_accept _).unique hstale
  exact absurd hresults (by decide)

end HttpWrapper

/-! ## The calls of the plugins -/

/-- What comes of a transfer, without the headers of the response. -/
def Reply.transfer : Reply → Transfer
  | .failed => .failed
  | .completed status_code _ content => .completed status_code content

/-- The wrapper of a plugin, with the fields of `response_`. -/
structure Simulates (plugin : MosqCluster.HttpWrapper) (http : HttpWrapper) : Prop where
  headers_ : http.headers_ = setHeaders plugin.headers
  fields : http.response_.fields = (plugin.statusCode, plugin.body)

/-- A plugin starts with a wrapper whose headers are those of its calls of `SetHeader`. -/
theorem Simulates.setHeader {plugin : MosqCluster.HttpWrapper} {http : HttpWrapper}
    (h : Simulates plugin http) (key value : Bytes) :
    Simulates (plugin.setHeader key value) (http.setHeader key value) := by
  refine ⟨?_, h.fields⟩
  rw [MosqCluster.HttpWrapper.setHeader, HttpWrapper.setHeader, setHeaders, List.foldl_append,
    h.headers_]
  rfl

/-- Where the headers can be sent, a plugin's call of `Post` gives what it gives here. -/
theorem HttpWrapper.post_simulates {plugin : MosqCluster.HttpWrapper} {http : HttpWrapper}
    (h : Simulates plugin http) (hsend : CanSend http.headers_) {net : Network} {url : Bytes}
    {data : JsonDocument} {reply : Reply}
    (hreply : net.perform (cString url) plugin.headers data.root = reply.transfer) :
    ∃ http', (http.post reply).Returns (http', (plugin.post net url data).2) ∧
      Simulates (plugin.post net url data).1 http' := by
  obtain ⟨response', hcall, hfields⟩ := exists_returns_call hsend (.post reply)
  have hpost : (response'.status_code_, response'.body_) =
        ((plugin.post net url data).1.statusCode, (plugin.post net url data).1.body) ∧
      (plugin.post net url data).1.headers = plugin.headers := by
    rw [MosqCluster.HttpWrapper.post, hreply, ← HttpResponse.fields, hfields, h.fields]
    cases reply with
    | failed => exact ⟨rfl, rfl⟩
    | completed status_code headers content => exact ⟨rfl, rfl⟩
  obtain ⟨hpost, hheaders⟩ := hpost
  refine ⟨{ http with response_ := response' }, ?_, ?_, hpost⟩
  · have hstatus : (plugin.post net url data).2 = decide (response'.status_code_ = 200) := by
      rw [(Prod.mk.inj hpost).1]
      rfl
    rwa [hstatus]
  · rw [hheaders]
    exact h.headers_

end HttpCalls

end MosqCluster
