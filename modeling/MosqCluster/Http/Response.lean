import Mathlib.Algebra.GroupWithZero.Nat
import MosqCluster.Foundation.OrderedMap
import MosqCluster.Helper.XString

/-!
# Responses on the wire

`HttpResponse` of `server/http_request.cpp`, with its content as bytes. `Message` prints the
response into a stream and copies that into an `xstring`. The length that is announced is the one
of the content; the content itself is printed as a C string.

What a client makes of the bytes is `readHead`: lines up to an empty one, and a body behind it.

## Main definitions

* `HttpResponse`, `HttpResponse.stream` and `HttpResponse.message`;
* `readHead` and `HttpResponse.Framed`: the response that a client reads.

## Main results

* `HttpResponse.readHead_stream`: a client reads the lines that were printed, and the content up to
  its first zero byte;
* `HttpResponse.framed_message_iff`: the message is framed as it should be exactly where the content
  has no zero byte and the message fits in an `xstring`.
-/

namespace MosqCluster.Http

/-- A carriage return and a line feed. -/
def crlf : Bytes := [13, 10]

/-- An integer as `operator<<` prints it. -/
def decimal : Int → Bytes
  | .ofNat n => bytes (toString n)
  | .negSucc n => 45 :: bytes (toString (n + 1))

/-! ## Status codes -/

/-- `http_resp_status_table`, without its last entry. -/
def httpRespStatusTable : List (Int32 × String) :=
  [(200, "OK"), (100, "Continue"), (101, "Switching Protocols"), (102, "Processing"),
    (201, "Created"), (202, "Accepted"), (203, "Non-Authoritative Information"),
    (204, "No Content"), (205, "Reset Content"), (206, "Partial Content"), (207, "Multi-Status"),
    (208, "Already Reported"), (226, "IM Used"), (300, "Multiple Choices"),
    (301, "Moved Permanently"), (302, "Found"), (303, "See Other"), (304, "Not Modified"),
    (305, "Use Proxy"), (307, "Temporary Redirect"), (308, "Permanent Redirect"),
    (400, "Bad Request"), (401, "Unauthorized"), (402, "Payment Required"), (403, "Forbidden"),
    (404, "Not Found"), (405, "Method Not Allowed"), (406, "Not Acceptable"),
    (407, "Proxy Authentication Required"), (408, "Request Timeout"), (409, "Conflict"),
    (410, "Gone"), (411, "Length Required"), (412, "Precondition Failed"),
    (413, "Payload Too Large"), (414, "URI Too Long"), (415, "Unsupported Media Type"),
    (416, "Range Not Satisfiable"), (417, "Expectation Failed"), (421, "Misdirected Request"),
    (422, "Unprocessable Entity"), (423, "Locked"), (424, "Failed Dependency"),
    (426, "Upgrade Required"), (428, "Precondition Required"), (429, "Too Many Requests"),
    (431, "Request Header Fields Too Large"), (451, "Unavailable For Legal Reasons"),
    (500, "Internal Server Error"), (501, "Not Implemented"), (502, "Bad Gateway"),
    (503, "Service Unavailable"), (504, "Gateway Timeout"), (505, "HTTP Version Not Supported"),
    (506, "Variant Also Negotiates"), (507, "Insufficient Storage"), (508, "Loop Detected"),
    (510, "Not Extended")]

/-- The last entry that `http_status_desc` looks at, which it falls back on as well. -/
def lastStatus : Int32 × String := (511, "Network Authentication Required")

/-- `http_status_desc`. -/
def httpStatusDesc (code : Int32) : Bytes :=
  bytes (((httpRespStatusTable ++ [lastStatus]).find? (·.1 = code)).getD lastStatus).2

/-! ## Responses -/

/-- `HttpResponse`. -/
structure HttpResponse where
  statusCode : Int32
  headers : OrderedMap XString Bytes
  content : Bytes

/-- A call that changes a response. -/
inductive Setting
  | setStatus (code : Int32)
  | setHeader (name value : Bytes)
  | setContent (content : Bytes)

namespace HttpResponse

/-- `SetStatus`, `SetHeader` and `SetContent`. -/
def set (r : HttpResponse) : Setting → HttpResponse
  | .setStatus code => { r with statusCode := code }
  | .setHeader name value => { r with headers := r.headers.insert ⟨name⟩ value }
  | .setContent content => { r with content := content }

/-- `HttpResponse::HttpResponse`. -/
def new : HttpResponse :=
  [.setHeader (bytes "Connection") (bytes "close"),
    .setHeader (bytes "Content-Type") (bytes "text/plain"),
    .setHeader (bytes "Server") (bytes "xauth/1.0")].foldl set ⟨404, [], []⟩

/-- A new response, after some calls. -/
def configured (settings : List Setting) : HttpResponse := settings.foldl set new

/-- The line that begins a response. -/
def statusLine (r : HttpResponse) : Bytes :=
  bytes "HTTP/1.1 " ++ decimal r.statusCode.toInt ++ bytes " " ++ httpStatusDesc r.statusCode

/-- `operator<<`. -/
def stream (r : HttpResponse) : Bytes :=
  r.statusLine ++ crlf ++
    r.headers.flatMap (fun p => cString p.1.bytes ++ bytes ":" ++ cString p.2 ++ crlf) ++
    (bytes "Content-Length" ++ bytes ":" ++ decimal r.content.length ++ crlf) ++ crlf ++
    cString r.content

/-- `Message`. -/
def message (r : HttpResponse) : Option Bytes :=
  xstring r.stream (Int32.ofNat r.stream.length)

end HttpResponse

/-! ## Reading a response -/

/-- The lines up to the empty one, and what is behind it. The first argument is what there is of
the current line. -/
def readHead (line : Bytes) : Bytes → Option (List Bytes × Bytes)
  | [] => none
  | [b] => readHead (line ++ [b]) []
  | b :: c :: rest =>
    if b = 13 ∧ c = 10 then
      if line = [] then some ([], rest)
      else (readHead [] rest).map fun p => (line :: p.1, p.2)
    else readHead (line ++ [b]) (c :: rest)

/-- The name of a header field. -/
def fieldName (line : Bytes) : Bytes := line.takeWhile (· ≠ 58)

/-- The line of a header. -/
def headerLine (p : XString × Bytes) : Bytes := p.1.bytes ++ bytes ":" ++ p.2

/-- The line that announces the length of a body. -/
def contentLengthLine (length : Nat) : Bytes := bytes "Content-Length:" ++ decimal length

/-- A client that reads `text` finds the status line, one line for each header, one that announces
the length of the body, and the content of the response as the body. -/
def HttpResponse.Framed (r : HttpResponse) (text : Bytes) : Prop :=
  ∃ fields body, readHead [] text = some (r.statusLine :: fields, body) ∧
    fields.filter (fieldName · ≠ bytes "Content-Length") = r.headers.map headerLine ∧
    fields.filter (fieldName · = bytes "Content-Length") = [contentLengthLine body.length] ∧
    body = r.content

/-- A header that may be set: its texts have no CR, no LF and no zero byte, and its name is not
the one of the length and has no colon. -/
structure ProperHeader (name value : Bytes) : Prop where
  name_chars : 13 ∉ name ∧ 10 ∉ name ∧ 0 ∉ name ∧ 58 ∉ name
  value_chars : 13 ∉ value ∧ 10 ∉ value ∧ 0 ∉ value
  ne_contentLength : name ≠ bytes "Content-Length"

/-- A call with a header that may be set. -/
def Setting.Proper : Setting → Prop
  | .setHeader name value => ProperHeader name value
  | _ => True

/-! ## Lines -/

theorem readHead_crlf_nil (rest : Bytes) : readHead [] (crlf ++ rest) = some ([], rest) := by
  simp [crlf, readHead]

theorem readHead_crlf {line : Bytes} (hline : line ≠ []) (rest : Bytes) :
    readHead line (crlf ++ rest) = (readHead [] rest).map fun p => (line :: p.1, p.2) := by
  simp [crlf, readHead, hline]

/-- A byte that is no carriage return goes to the current line. -/
theorem readHead_cons {b : UInt8} (hb : b ≠ 13) (line rest : Bytes) :
    readHead line (b :: rest) = readHead (line ++ [b]) rest := by
  cases rest with
  | nil => simp [readHead]
  | cons c rest => simp [readHead, hb]

/-- So do all the bytes of a line. -/
theorem readHead_append {l : Bytes} (hl : 13 ∉ l) (line rest : Bytes) :
    readHead line (l ++ rest) = readHead (line ++ l) rest := by
  induction l generalizing line with
  | nil => simp
  | cons b l ih =>
    rw [List.mem_cons, not_or] at hl
    rw [List.cons_append, readHead_cons (Ne.symm hl.1), ih hl.2, List.append_assoc,
      List.singleton_append]

/-- Lines that were printed are read. -/
theorem readHead_lines {lines : List Bytes} (hlines : ∀ l ∈ lines, 13 ∉ l ∧ l ≠ [])
    (body : Bytes) :
    readHead [] (lines.flatMap (· ++ crlf) ++ crlf ++ body) = some (lines, body) := by
  induction lines with
  | nil => exact readHead_crlf_nil body
  | cons l lines ih =>
    obtain ⟨hl, hne⟩ := hlines l List.mem_cons_self
    rw [List.flatMap_cons, List.append_assoc, List.append_assoc, List.append_assoc,
      readHead_append hl, List.nil_append, readHead_crlf hne, ← List.append_assoc,
      ih fun l' hl' => hlines l' (List.mem_cons_of_mem _ hl'), Option.map_some]

/-- What comes later belongs to the body. -/
theorem readHead_append_right {line text : Bytes} {lines : List Bytes} {body : Bytes}
    (h : readHead line text = some (lines, body)) (more : Bytes) :
    readHead line (text ++ more) = some (lines, body ++ more) := by
  induction line, text using readHead.induct generalizing lines with
  | case1 line => simp [readHead] at h
  | case2 line b ih => simp [readHead] at h
  | case3 b c rest heq =>
    simp only [readHead, if_pos heq, if_true, Option.some.injEq, Prod.mk.injEq] at h
    obtain ⟨rfl, rfl⟩ := h
    simp [readHead, heq]
  | case4 line b c rest heq hline ih =>
    simp only [readHead, if_pos heq, if_neg hline, Option.map_eq_some_iff, Prod.mk.injEq] at h
    obtain ⟨⟨lines', body'⟩, hrest, rfl, rfl⟩ := h
    rw [List.cons_append, List.cons_append, readHead, if_pos heq, if_neg hline, ih hrest,
      Option.map_some]
  | case5 line b c rest hne ih =>
    rw [readHead, if_neg hne] at h
    rw [List.cons_append, List.cons_append, readHead, if_neg hne]
    exact ih h

/-! ## The printed lines -/

/-- The digits of a number. -/
theorem not_mem_toString {n : Nat} {b : UInt8} (hb : b.toNat < 48) : b ∉ bytes (toString n) := by
  rw [bytes, List.mem_map]
  rintro ⟨c, hc, rfl⟩
  have hdigit := Nat.isDigit_of_mem_toDigits (by decide) (by decide) (Nat.toList_repr ▸ hc)
  simp only [Char.isDigit, Bool.and_eq_true, decide_eq_true_eq] at hdigit
  have hlow : 48 ≤ c.val.toNat := UInt32.le_iff_toNat_le.mp hdigit.1
  have hhigh : c.val.toNat ≤ 57 := UInt32.le_iff_toNat_le.mp hdigit.2
  have hbyte : c.toUInt8.toNat = c.val.toNat % 256 := UInt32.toNat_toUInt8 c.val
  omega

theorem not_mem_decimal (n : Int) : 13 ∉ decimal n := by
  cases n with
  | ofNat n => exact not_mem_toString (by decide)
  | negSucc n =>
    rw [decimal, List.mem_cons, not_or]
    exact ⟨by decide, not_mem_toString (by decide)⟩

/-- No description has a carriage return. -/
theorem not_mem_httpStatusDesc (code : Int32) : 13 ∉ httpStatusDesc code := by
  have htable : ∀ p ∈ httpRespStatusTable ++ [lastStatus], 13 ∉ bytes p.2 := by decide +kernel
  rw [httpStatusDesc]
  cases h : (httpRespStatusTable ++ [lastStatus]).find? (·.1 = code) with
  | none => exact htable lastStatus (by simp)
  | some p => exact htable p (List.mem_of_find?_eq_some h)

namespace HttpResponse

/-- Every header of a response may be set. -/
def Proper (r : HttpResponse) : Prop := ∀ p ∈ r.headers, ProperHeader p.1.bytes p.2

variable {r : HttpResponse} {settings : List Setting}

theorem Proper.set {c : Setting} (hr : r.Proper) (hc : c.Proper) : (r.set c).Proper := by
  cases c with
  | setStatus code => exact hr
  | setContent content => exact hr
  | setHeader name value =>
    intro p hp
    rcases OrderedMap.mem_of_mem_insert hp with rfl | hp
    · exact hc
    · exact hr p hp

theorem Proper.foldl_set (hr : r.Proper) (hsettings : ∀ c ∈ settings, c.Proper) :
    (settings.foldl HttpResponse.set r).Proper := by
  induction settings generalizing r with
  | nil => exact hr
  | cons c settings ih =>
    exact ih (hr.set (hsettings c List.mem_cons_self))
      fun c' hc' => hsettings c' (List.mem_cons_of_mem _ hc')

/-- So it is of a response that was configured with such headers. -/
theorem proper_configured (hsettings : ∀ c ∈ settings, c.Proper) :
    (configured settings).Proper := by
  have hnew : new.Proper := by
    refine Proper.foldl_set (fun p hp => by cases hp) fun c hc => ?_
    simp only [List.mem_cons, List.not_mem_nil, or_false] at hc
    rcases hc with rfl | rfl | rfl
    all_goals exact ⟨by decide, by decide, by decide⟩
  exact hnew.foldl_set hsettings

/-- The lines of a response. -/
def lines (r : HttpResponse) : List Bytes :=
  r.statusLine :: (r.headers.map headerLine ++ [contentLengthLine r.content.length])

/-- What is printed are the lines, an empty one, and the content up to its first zero byte. -/
theorem stream_eq (hr : r.Proper) :
    r.stream = r.lines.flatMap (· ++ crlf) ++ crlf ++ cString r.content := by
  have hheaders : r.headers.flatMap
      (fun p => cString p.1.bytes ++ bytes ":" ++ cString p.2 ++ crlf) =
      (r.headers.map headerLine).flatMap (· ++ crlf) := by
    rw [List.flatMap_map]
    refine List.flatMap_congr fun p hp => ?_
    rw [cString_of_not_mem (hr p hp).name_chars.2.2.1, cString_of_not_mem (hr p hp).value_chars.2.2,
      headerLine]
  have hlength : bytes "Content-Length" ++ bytes ":" ++ decimal r.content.length =
      contentLengthLine r.content.length := rfl
  rw [stream, hheaders, hlength, lines]
  simp only [List.flatMap_cons, List.flatMap_append, List.flatMap_nil, List.append_nil,
    List.append_assoc]

/-- No line is empty, and none has a carriage return. -/
theorem lines_proper (hr : r.Proper) : ∀ l ∈ r.lines, 13 ∉ l ∧ l ≠ [] := by
  intro l hl
  rw [lines, List.mem_cons, List.mem_append, List.mem_map, List.mem_singleton] at hl
  rcases hl with rfl | ⟨p, hp, rfl⟩ | rfl
  · refine ⟨?_, by simp [statusLine, bytes]⟩
    simp only [statusLine, List.mem_append, not_or]
    exact ⟨⟨⟨by decide, not_mem_decimal _⟩, by decide⟩, not_mem_httpStatusDesc _⟩
  · refine ⟨?_, by simp [headerLine, bytes]⟩
    simp only [headerLine, List.mem_append, not_or]
    exact ⟨⟨(hr p hp).name_chars.1, by decide⟩, (hr p hp).value_chars.1⟩
  · refine ⟨?_, by simp [contentLengthLine, bytes]⟩
    simp only [contentLengthLine, List.mem_append, not_or]
    exact ⟨by decide, not_mem_decimal _⟩

/-- A client reads the lines that were printed, and the content up to its first zero byte. -/
theorem readHead_stream (hr : r.Proper) :
    readHead [] r.stream = some (r.lines, cString r.content) := by
  rw [stream_eq hr]
  exact readHead_lines (lines_proper hr) _

/-! ## Framing -/

/-- The size of the response: that of its lines, of the line breaks, and of the content. -/
def size (r : HttpResponse) : Nat :=
  (r.lines.map (·.length + 2)).sum + 2 + r.content.length

theorem length_stream (hr : r.Proper) (hcontent : 0 ∉ r.content) : r.stream.length = r.size := by
  rw [stream_eq hr, cString_of_not_mem hcontent, size]
  simp only [List.length_append, List.length_flatMap, crlf, List.length_cons, List.length_nil]

/-- The name of a header, and of the line of the length. -/
theorem fieldName_append {name : Bytes} (hname : 58 ∉ name) (value : Bytes) :
    fieldName (name ++ bytes ":" ++ value) = name := by
  have hcolon : bytes ":" ++ value = 58 :: value := rfl
  rw [List.append_assoc, hcolon, fieldName, List.takeWhile_append_of_pos, List.takeWhile_cons]
  · simp
  · intro b hb
    have : b ≠ 58 := fun h => hname (h ▸ hb)
    simpa using this

theorem fieldName_contentLengthLine (n : Nat) :
    fieldName (contentLengthLine n) = bytes "Content-Length" :=
  fieldName_append (show 58 ∉ bytes "Content-Length" by decide) (decimal n)

/-- The stream, where the content is a C string, is framed as it should be. -/
theorem framed_stream (hr : r.Proper) (hcontent : 0 ∉ r.content) : r.Framed r.stream := by
  have hfield : ∀ l ∈ r.headers.map headerLine, fieldName l ≠ bytes "Content-Length" := by
    refine List.forall_mem_map.mpr fun p hp => ?_
    rw [headerLine, fieldName_append (hr p hp).name_chars.2.2.2]
    exact (hr p hp).ne_contentLength
  refine ⟨_, _, readHead_stream hr, ?_, ?_, cString_of_not_mem hcontent⟩
  · rw [List.filter_append, List.filter_eq_self.mpr, List.filter_eq_nil_iff.mpr, List.append_nil]
    · simp [fieldName_contentLengthLine]
    · simpa using hfield
  · rw [List.filter_append, List.filter_eq_nil_iff.mpr, List.nil_append,
      cString_of_not_mem hcontent]
    · simp [fieldName_contentLengthLine]
    · simpa using hfield

/-- A copy of the stream that is framed is all of it, and the content is a C string. -/
theorem eq_stream_of_framed {text : Bytes} (hr : r.Proper) (hcopy : text <+: r.stream)
    (h : r.Framed text) : text = r.stream ∧ 0 ∉ r.content := by
  obtain ⟨fields, body, hread, -, -, rfl⟩ := h
  obtain ⟨more, hmore⟩ := hcopy
  have hall := readHead_append_right hread more
  rw [hmore, readHead_stream hr, Option.some.injEq, Prod.mk.injEq] at hall
  -- the body cannot be longer than what is printed of the content
  have hle : (cString r.content).length ≤ r.content.length :=
    (List.takeWhile_prefix _).length_le
  have hlen := congrArg List.length hall.2
  rw [List.length_append] at hlen
  obtain rfl : more = [] := List.length_eq_zero_iff.mp (by omega)
  refine ⟨by rw [← hmore, List.append_nil], fun hzero => ?_⟩
  have hself := hall.2
  rw [List.append_nil, cString, List.takeWhile_eq_self_iff] at hself
  simpa using hself 0 hzero

/-- The message of a response with proper headers is one status line, one line for each header, one
line with the length, an empty line and a body of that length that is the content, exactly where the
content has no zero byte and the message has fewer than `INT_MAX` bytes. -/
theorem framed_message_iff (settings : List Setting) (hsettings : ∀ c ∈ settings, c.Proper) :
    (∃ text, (configured settings).message = some text ∧ (configured settings).Framed text) ↔
      0 ∉ (configured settings).content ∧ (configured settings).size < 2 ^ 31 - 1 := by
  have hr := proper_configured hsettings
  constructor
  · rintro ⟨text, htext, hframed⟩
    obtain ⟨htake, hmax⟩ := eq_take_of_xstring htext
    rw [htake] at hframed
    obtain ⟨hall, hcontent⟩ := eq_stream_of_framed hr (List.take_prefix _ _) hframed
    refine ⟨hcontent, ?_⟩
    rw [← length_stream hr hcontent]
    have hlen := congrArg List.length hall
    rw [List.length_take] at hlen
    omega
  · rintro ⟨hcontent, hsize⟩
    rw [← length_stream hr hcontent] at hsize
    exact ⟨_, xstring_length hsize, framed_stream hr hcontent⟩

/-- A response with one more header and a short text is framed. -/
theorem framed_message_ok :
    ∃ text,
      (configured [.setHeader (bytes "X") (bytes "1"), .setContent (bytes "ok")]).message =
          some text ∧
        (configured [.setHeader (bytes "X") (bytes "1"), .setContent (bytes "ok")]).Framed text :=
  (framed_message_iff _ (by
    simp only [List.forall_mem_cons, List.not_mem_nil, false_implies, implies_true, and_true]
    exact ⟨⟨by decide, by decide, by decide⟩, trivial⟩)).mpr ⟨by decide, by decide⟩

/-- A content of one zero byte is announced, and not sent. -/
theorem not_framed_message_zero :
    ¬ ∃ text, (configured [.setStatus 200, .setContent [0]]).message = some text ∧
      (configured [.setStatus 200, .setContent [0]]).Framed text := by
  intro h
  obtain ⟨text, htext, hframed⟩ := h
  have hr : (configured [.setStatus 200, .setContent [0]]).Proper :=
    proper_configured (by simp [Setting.Proper])
  obtain ⟨htake, -⟩ := eq_take_of_xstring htext
  rw [htake] at hframed
  obtain ⟨-, hcontent⟩ := eq_stream_of_framed hr (List.take_prefix _ _) hframed
  exact hcontent (by decide)

end HttpResponse

end MosqCluster.Http
