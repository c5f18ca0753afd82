import MosqCluster.Http.Parser.HeaderNames
import MosqCluster.Http.Queries
import MosqCluster.Http.Response

/-!
# Requests as they are sent

A request that a client prints (a request line with a path, header lines, an empty line and a body)
and that comes in one buffer. The parser reads it to its end, and the `HttpRequest` has the method,
the path, the headers and the body that were printed. A header whose name is repeated has its last
value.

## Main definitions

* `RequestText` and `RequestText.text`: a request and what is sent of it;
* `RequestText.Proper`: the requests that this is about;
* `LineStart`: the parser is where a header line may begin.

## Main results

* `LineStart.line` and `LineStart.announce`: a header line is read;
* `RequestText.append_text`: the request is what was sent.
-/

namespace MosqCluster.Http

/-! ## Requests -/

/-- A header line, with the blanks behind its colon. -/
structure HeaderLine where
  name : Bytes
  blanks : Bytes
  value : Bytes

namespace HeaderLine

/-- The line that is sent. -/
def text (f : HeaderLine) : Bytes := f.name ++ 58 :: (f.blanks ++ (f.value ++ crlf))

/-- The name in lower case. -/
def key (f : HeaderLine) : Bytes := f.name.map token

/-- The line announces the length of the body. -/
def isContentLength (f : HeaderLine) : Bool := f.key = bytes "content-length"

/-- A line of a header: its name is a token, and its value begins with no blank and has no control
characters. The body is not sent in chunks, and the connection is not handed over to another
protocol. -/
structure Proper (f : HeaderLine) : Prop where
  name_ne : f.name ≠ []
  name : ∀ ch ∈ f.name, token ch ≠ 0
  blanks : ∀ ch ∈ f.blanks, ch = ' ' ∨ ch = '\t'
  value : ∀ ch ∈ f.value, isValueByte ch
  value_head : ∀ ch ∈ f.value.head?, ch ≠ ' ' ∧ ch ≠ '\t'
  identity : f.key ≠ bytes "transfer-encoding" ∧ f.key ≠ bytes "upgrade"

-- byte by byte, also where the type of bytes is known to be finite
instance (f : HeaderLine) : Decidable f.Proper :=
  decidable_of_iff
    ((f.name ≠ [] ∧ f.name.all fun ch => token ch ≠ 0) ∧
      (f.blanks.all fun ch => ch = ' ' ∨ ch = '\t') ∧
      (f.value.all isValueByte ∧ f.value.head?.all fun (ch : UInt8) => ch ≠ ' ' ∧ ch ≠ '\t') ∧
      f.key ≠ bytes "transfer-encoding" ∧ f.key ≠ bytes "upgrade") <| by
    simp only [List.all_eq_true, Option.all_eq_true, decide_eq_true_eq]
    constructor
    · rintro ⟨⟨hne, hname⟩, hblanks, ⟨hvalue, hhead⟩, hidentity⟩
      exact ⟨hne, hname, hblanks, hvalue, hhead, hidentity⟩
    · rintro ⟨hne, hname, hblanks, hvalue, hhead, hidentity⟩
      exact ⟨⟨hne, hname⟩, hblanks, ⟨hvalue, hhead⟩, hidentity⟩

end HeaderLine

/-- A request. -/
structure RequestText where
  method : HttpMethod
  path : Bytes
  lines : List HeaderLine
  body : Bytes

namespace RequestText

/-- The first line. -/
def requestLine (r : RequestText) : Bytes :=
  bytes (methodStrings r.method) ++ 32 :: (r.path ++ bytes " HTTP/1.1\r\n")

/-- What is sent before the body. -/
def head (r : RequestText) : Bytes := r.requestLine ++ (r.lines.flatMap HeaderLine.text ++ crlf)

/-- What is sent. -/
def text (r : RequestText) : Bytes := r.head ++ r.body

/-- The length of the body is announced by one line, or there is none and no body either. -/
def Announces (r : RequestText) : Prop :=
  match r.lines.filter HeaderLine.isContentLength with
  | [] => r.body = []
  | [f] => f.value = decimal r.body.length
  | _ => False

/-- A request whose method is not `CONNECT` and whose target is a path; its head is not too long
for the parser. -/
structure Proper (r : RequestText) : Prop where
  method : r.method ≠ .CONNECT
  path : ∃ p, r.path = 47 :: p ∧ ∀ ch ∈ p, isUrlChar ch
  lines : ∀ f ∈ r.lines, f.Proper
  announces : r.Announces
  head : r.head.length ≤ httpMaxHeaderSize
  body : r.body.length ≤ maxContentLength

/-- What a handler is to see of it. -/
def message (r : RequestText) : Message where
  url := r.path
  method := some r.method
  headers := assign (fun _ => none) (r.lines.map fun f => (f.name, f.value))
  queries := fun _ => none
  fragment := []
  body := r.body

end RequestText

variable {data rest tail bs name value : Bytes} {l l' : Loop} {ch : UInt8}
  {parser parser' : HttpParser} {ops : List Op} {extra n : Nat} {method : HttpMethod}
  {length : Option Nat} {r : HttpRequest} {f : HeaderLine}

/-! ## Steps in the head of a request -/

/-- The parser has come to some bytes of the first message, and has counted all bytes before. -/
structure InHead (data : Bytes) (l : Loop) (rest : Bytes) : Prop where
  heads : Heads (.enter (httpParserInit .request)) data l rest
  counted : l.parser.nread.toNat = l.p
  completed : l.completed = 0

/-- Bytes that are counted at once. -/
theorem nread_addNread (parser : HttpParser) (n : Nat)
    (hroom : parser.nread.toNat + n ≤ httpMaxHeaderSize) :
    (parser.addNread n).nread.toNat = parser.nread.toNat + n := by
  have hmax : httpMaxHeaderSize = 81920 := rfl
  simp only [HttpParser.addNread, UInt32.toNat_add, UInt32.toNat_ofNat']
  omega

/-- One iteration. -/
theorem InHead.step (h : InHead data l (ch :: tail)) (hheader : l.parser.state.parsingHeader)
    (hroom : l.p + 1 ≤ httpMaxHeaderSize)
    (ht : dispatch (l.parser.addNread 1) ch tail = ⟨parser, ops, .next extra⟩)
    (hcounted : parser.nread.toNat = (l.parser.addNread 1).nread.toNat + extra)
    (hops : ops.count .messageComplete = 0) :
    InHead data { ops.foldl Loop.runOp l with parser, p := l.p + extra + 1 } (tail.drop extra) := by
  obtain ⟨hiter, hnread⟩ := @iteration_of_room l.parser ch tail hheader
    (by rw [h.counted]; exact hroom)
  rw [ht] at hiter
  have hadvance : l.advance ch tail extra =
      { ops.foldl Loop.runOp l with parser, p := l.p + extra + 1 } := by
    rw [Loop.advance, hiter]
    rfl
  refine ⟨?_, ?_, ?_⟩
  · rw [← hadvance]
    exact h.heads.next (by rw [hiter])
  · show parser.nread.toNat = l.p + extra + 1
    rw [hcounted, hnread, h.counted, Nat.add_right_comm]
  · rw [← hadvance, Loop.advance, hiter]
    show (l.run _).completed = 0
    rw [completed_run, h.completed, hops]

/-- An iteration that takes one byte without marks and callbacks. -/
theorem InHead.quiet (h : InHead data l (ch :: tail)) (hheader : l.parser.state.parsingHeader)
    (hroom : l.p + 1 ≤ httpMaxHeaderSize)
    (ht : dispatch (l.parser.addNread 1) ch tail = .next parser [])
    (hnread : parser.nread = (l.parser.addNread 1).nread) :
    InHead data { l with parser, p := l.p + 1 } tail :=
  h.step hheader hroom ht (by rw [hnread]; rfl) rfl

/-- Bytes that lead along a path of records. -/
theorem InHead.quietPath {path : List (UInt8 × HttpParser)} (hpath : quietPath parser path)
    (h : InHead data l (path.map Prod.fst ++ rest))
    (hl : l.parser = { parser with nread := l.parser.nread })
    (hroom : l.p + path.length ≤ httpMaxHeaderSize) :
    ∃ l', InHead data l' rest ∧ l'.marks = l.marks ∧ l'.calls = l.calls ∧
      l'.p = l.p + path.length ∧
      l'.parser = { (path.map Prod.snd).getLastD parser with nread := l'.parser.nread } := by
  induction path generalizing l parser with
  | nil => exact ⟨l, h, rfl, rfl, rfl, hl⟩
  | cons step path ih =>
    obtain ⟨ch, parser'⟩ := step
    obtain ⟨hheader, hdispatch, hpath⟩ := hpath
    rw [List.length_cons] at hroom
    have hcounted : l.parser.addNread 1 =
        { parser with nread := (l.parser.addNread 1).nread } := congrArg (·.addNread 1) hl
    have hstate : l.parser.state = parser.state := congrArg (·.state) hl
    have ht : dispatch (l.parser.addNread 1) ch (path.map Prod.fst ++ rest) =
        .next { parser' with nread := (l.parser.addNread 1).nread } [] :=
      (congrArg (dispatch · ch _) hcounted).trans (hdispatch _ _)
    have hnext := h.quiet (hstate ▸ hheader) (by omega) ht rfl
    obtain ⟨l', hl', hmarks, hcalls, hp, hparser⟩ := ih hpath hnext rfl
      (by show l.p + 1 + path.length ≤ _; omega)
    refine ⟨l', hl', hmarks, hcalls, ?_, ?_⟩
    · rw [hp, List.length_cons]
      show l.p + 1 + path.length = _
      omega
    · rw [List.map_cons, List.getLastD_cons]
      exact hparser

/-! ## Spans -/

/-- A mark that is set for the first time. -/
theorem runOp_mark (l : Loop) (kind : SpanKind) (h : l.marks kind = none) :
    l.runOp (.mark kind) = { l with marks := Function.update l.marks kind (some l.p) } := by
  rw [Loop.runOp, if_neg (by simp [h])]

/-- A span that is passed on. -/
theorem runOp_callbackData {a : Nat} (l : Loop) (kind : SpanKind) (stop : Nat)
    (hinstalled : kind.installed) (hmark : l.marks = Function.update noMarks kind (some a))
    (hdrop : data.drop a = bs ++ rest) (hlength : a + bs.length = l.p + stop) :
    (l.runOp (.callbackData kind stop)).marks = noMarks ∧
      (l.runOp (.callbackData kind stop)).request data = (l.request data).onData bs kind := by
  have hset : l.marks kind = some a := by rw [hmark, Function.update_self]
  have hspan : (data.drop a).take (l.p + stop - a) = bs := by
    rw [hdrop, show l.p + stop - a = bs.length by omega, List.take_left]
  have hrun : l.runOp (.callbackData kind stop) = { l with
      marks := Function.update l.marks kind none
      calls := l.calls ++ [.onData kind a (l.p + stop - a)] } := by
    rw [Loop.runOp, Loop.callbackData, hset]
    simp [hinstalled]
  rw [hrun]
  refine ⟨?_, ?_⟩
  · rw [hmark, Function.update_idem]
    exact Function.update_eq_self kind noMarks
  · rw [Loop.request, List.foldl_append, List.foldl_cons, List.foldl_nil, HttpRequest.call, hspan]
    rfl

/-! ## The request line -/

/-- The record of a request in its head, as far as a header line may change it. -/
def headCore (method : HttpMethod) (length : Option Nat) : HttpParser :=
  HttpParser.core { httpParserInit .request with
    method
    flags := { contentLength := length.isSome }
    contentLength := match length with
      | some n => .ofNat n
      | none => ullongMax }

/-- The parser is where a header line may begin: at the first one, or behind another one, which it
has still to finish. -/
structure LineStart (data : Bytes) (method : HttpMethod) (length : Option Nat) (r : HttpRequest)
    (l : Loop) (rest : Bytes) : Prop where
  at_ : InHead data l rest
  header : l.parser.state.parsingHeader
  turns : ∃ parser ops,
    (∀ (ch : UInt8) tail, ch ≠ ' ' → ch ≠ '\t' →
      dispatch (l.parser.addNread 1) ch tail = .reexecute ops (onHeaderFieldStart parser ch)) ∧
    parser.nread = (l.parser.addNread 1).nread ∧ parser.core = headCore method length ∧
    ops.count .messageComplete = 0 ∧ (ops.foldl Loop.runOp l).marks = noMarks ∧
    (ops.foldl Loop.runOp l).request data = r

/-- The records that a word leads through, as the name of a method. -/
def wordPath (parser : HttpParser) : Bytes → List (UInt8 × HttpParser)
  | [] => []
  | ch :: word => (ch, (onReqMethod parser ch).parser) ::
      wordPath (onReqMethod parser ch).parser word

/-- Every letter of the word is taken. -/
def takesMethod (parser : HttpParser) : Bytes → Bool
  | [] => true
  | ch :: word => parser.state = .reqMethod && (onReqMethod parser ch).ops = [] &&
      (onReqMethod parser ch).exit = .next 0 && takesMethod (onReqMethod parser ch).parser word

/-- The case of the method does not look at what has been counted. -/
theorem onReqMethod_nread (parser : HttpParser) (ch : UInt8) (nread : UInt32) :
    onReqMethod { parser with nread } ch =
      ⟨{ (onReqMethod parser ch).parser with nread }, (onReqMethod parser ch).ops,
        (onReqMethod parser ch).exit⟩ := by
  unfold onReqMethod
  dsimp only
  split_ifs <;> first
    | rfl
    | (split <;> rfl)

/-- So a word that is taken is read along its path. -/
theorem quietPath_wordPath {word : Bytes} (h : takesMethod parser word) :
    quietPath parser (wordPath parser word) := by
  induction word generalizing parser with
  | nil => trivial
  | cons ch word ih =>
    simp only [takesMethod, Bool.and_eq_true, decide_eq_true_eq] at h
    obtain ⟨⟨⟨hstate, hops⟩, hexit⟩, hword⟩ := h
    refine ⟨by rw [hstate]; rfl, fun nread tail => ?_, ih hword⟩
    have hdispatch : dispatch { parser with nread } ch tail =
        onReqMethod { parser with nread } ch := by
      simp only [dispatch, hstate]
    rw [hdispatch, onReqMethod_nread, hops, hexit]
    rfl

theorem map_fst_wordPath (word : Bytes) : (wordPath parser word).map Prod.fst = word := by
  induction word generalizing parser with
  | nil => rfl
  | cons ch word ih => rw [wordPath, List.map_cons, ih]

/-- The record behind the first letter of a method. -/
def firstParser (first : HttpMethod) : HttpParser :=
  { httpParserInit .request with
    state := .reqMethod, method := first, index := 1, contentLength := ullongMax }

/-- Every method is read, and the space behind it. -/
theorem takesMethod_all (method : HttpMethod) :
    ∃ ch word first, bytes (methodStrings method) = ch :: word ∧ isAlpha ch ∧
      firstMethod ch = some first ∧ takesMethod (firstParser first) (word ++ [32]) ∧
      (((wordPath (firstParser first) (word ++ [32])).map Prod.snd).getLastD
        (firstParser first)).state = .reqSpacesBeforeUrl ∧
      (((wordPath (firstParser first) (word ++ [32])).map Prod.snd).getLastD
        (firstParser first)).core = headCore method none := by
  cases method <;>
    exact ⟨_, _, _, rfl, by decide, rfl, by decide +kernel, by decide +kernel, by decide +kernel⟩

/-- The method, and the space behind it. -/
theorem exists_inHead_method (hdata : data = bytes (methodStrings method) ++ 32 :: rest)
    (hroom : (bytes (methodStrings method)).length + 1 ≤ httpMaxHeaderSize) :
    ∃ l, InHead data l rest ∧ l.p = (bytes (methodStrings method)).length + 1 ∧
      l.marks = noMarks ∧ l.request data = .fresh ∧ l.parser.state = .reqSpacesBeforeUrl ∧
      l.parser.core = headCore method none := by
  obtain ⟨ch, word, first, hword, halpha, hfirst, htakes, hstate, hcore⟩ := takesMethod_all method
  have hend : ¬ (ch = CR || ch = LF) := by
    rw [Bool.or_eq_true, decide_eq_true_eq, decide_eq_true_eq, not_or]
    constructor <;> rintro rfl <;> exact absurd halpha (by decide)
  have hstart : InHead data (.enter (httpParserInit .request))
      (ch :: ((wordPath (firstParser first) (word ++ [32])).map Prod.fst ++ rest)) := by
    refine ⟨?_, rfl, rfl⟩
    rw [map_fst_wordPath, List.append_assoc, List.singleton_append, ← List.cons_append, ← hword,
      ← hdata]
    exact .start
  rw [hword, List.length_cons] at hroom ⊢
  -- the first letter begins the message
  have ht : dispatch ((httpParserInit .request).addNread 1) ch
      ((wordPath (firstParser first) (word ++ [32])).map Prod.fst ++ rest) =
        ⟨{ firstParser first with nread := ((httpParserInit .request).addNread 1).nread },
          [.messageBegin], .next 0⟩ := by
    show onStartReq _ ch = _
    rw [onStartReq, if_neg hend]
    simp only [halpha, hfirst, Bool.not_true, Bool.false_eq_true, if_false]
    rfl
  have hletter := hstart.step rfl (by show 0 + 1 ≤ _; omega) ht rfl rfl
  obtain ⟨l, hl, hmarks, hcalls, hp, hparser⟩ :=
    hletter.quietPath (quietPath_wordPath htakes) rfl (by
      rw [← List.length_map (f := Prod.fst), map_fst_wordPath, List.length_append]
      show 0 + 0 + 1 + (word.length + 1) ≤ _
      omega)
  refine ⟨l, hl, ?_, hmarks, ?_, ?_, ?_⟩
  · rw [hp, ← List.length_map (f := Prod.fst), map_fst_wordPath, List.length_append]
    show 0 + 0 + 1 + (word.length + 1) = _
    omega
  · rw [Loop.request, hcalls]
    rfl
  · rw [hparser]
    exact hstate
  · rw [hparser]
    exact hcore

/-- A byte of a path. -/
theorem dispatch_path (parser : HttpParser) (hs : parser.state = .reqPath) (hch : isUrlChar ch)
    (tail : Bytes) :
    dispatch parser ch tail = .next { parser with state := .reqPath } [] := by
  obtain ⟨hspace, hcr, hlf, htab, hff, hhash⟩ := ne_of_isUrlChar hch
  have hquestion : ch ≠ '?' := by
    rintro rfl
    exact absurd hch (by decide)
  have hpath : parseUrlChar .reqPath ch = .reqPath := by
    simp [parseUrlChar, hspace, hcr, hlf, htab, hff, hch]
  simp [dispatch, hs, onReqPath, hspace, hcr, hlf, hquestion, stepUrl, hpath]

/-- A path is read under its mark. -/
theorem exists_inHead_path (h : InHead data l (bs ++ rest)) (hbs : ∀ ch ∈ bs, isUrlChar ch)
    (hs : l.parser.state = .reqPath) (hroom : l.p + bs.length ≤ httpMaxHeaderSize) :
    ∃ l', InHead data l' rest ∧ l'.p = l.p + bs.length ∧ l'.marks = l.marks ∧
      l'.request data = l.request data ∧ l'.parser.state = .reqPath ∧
      l'.parser.core = l.parser.core := by
  induction bs generalizing l with
  | nil => exact ⟨l, h, rfl, rfl, rfl, hs, rfl⟩
  | cons ch bs ih =>
    rw [List.length_cons] at hroom
    have ht := dispatch_path (l.parser.addNread 1) hs (hbs ch List.mem_cons_self)
      (bs ++ rest)
    have hnext := h.quiet (by rw [hs]; rfl) (by omega) ht rfl
    obtain ⟨l', hl', hp, hmarks, hrequest, hstate, hcore⟩ := ih hnext
      (fun ch hmem => hbs ch (List.mem_cons_of_mem _ hmem)) rfl
      (by show l.p + 1 + bs.length ≤ _; omega)
    refine ⟨l', hl', ?_, hmarks, hrequest, hstate, hcore⟩
    rw [hp, List.length_cons]
    show l.p + 1 + bs.length = _
    omega

/-- The records that the version leads through, behind the space. -/
def versionRecords (parser : HttpParser) : List (UInt8 × HttpParser) :=
  [(72, { parser with state := .reqHttpH }), (84, { parser with state := .reqHttpHT }),
    (84, { parser with state := .reqHttpHTT }), (80, { parser with state := .reqHttpHTTP }),
    (47, { parser with state := .reqFirstHttpMajor }),
    (49, { parser with state := .reqHttpMajor, httpMajor := 1 }),
    (46, { parser with state := .reqFirstHttpMinor, httpMajor := 1 }),
    (49, { parser with state := .reqHttpMinor, httpMajor := 1, httpMinor := 1 }),
    (13, { parser with state := .reqLineAlmostDone, httpMajor := 1, httpMinor := 1 }),
    (10, { parser with state := .headerFieldStart, httpMajor := 1, httpMinor := 1 })]

/-- The version is read along them. -/
theorem quietPath_versionRecords (parser : HttpParser) (hs : parser.state = .reqHttpStart) :
    quietPath parser (versionRecords parser) := by
  refine ⟨by rw [hs]; rfl, fun nread tail => ?_, ?_⟩
  · simp only [dispatch, hs]
    rfl
  · iterate 9
      refine ⟨rfl, fun _ _ => rfl, ?_⟩
    exact trivial

/-- The request line, up to the first header line. -/
theorem exists_lineStart {path : Bytes}
    (hdata : data = bytes (methodStrings method) ++
      32 :: (47 :: path ++ (bytes " HTTP/1.1\r\n" ++ rest)))
    (hmethod : method ≠ .CONNECT) (hpath : ∀ ch ∈ path, isUrlChar ch)
    (hroom : (bytes (methodStrings method)).length + path.length + 13 ≤ httpMaxHeaderSize) :
    ∃ l, LineStart data method none { HttpRequest.fresh with url := 47 :: path } l rest ∧
      l.p = (bytes (methodStrings method)).length + path.length + 13 := by
  obtain ⟨l, hl, hp, hmarks, hrequest, hstate, hcore⟩ := exists_inHead_method hdata (by omega)
  -- the slash begins the URL
  have hnot : l.parser.method ≠ .CONNECT := by
    have : l.parser.method = method := congrArg (·.method) hcore
    rwa [this]
  have ht : dispatch (l.parser.addNread 1) 47 (path ++ (bytes " HTTP/1.1\r\n" ++ rest)) =
      .next { l.parser.addNread 1 with state := .reqPath } [.mark .url] := by
    have hstate' : (l.parser.addNread 1).state = .reqSpacesBeforeUrl := hstate
    have hmethod' : (l.parser.addNread 1).method ≠ .CONNECT := hnot
    simp +decide [dispatch, hstate', onReqSpacesBeforeUrl, hmethod', stepUrl, parseUrlChar]
  have hslash := hl.step (by rw [hstate]; rfl) (by omega) ht rfl rfl
  rw [List.foldl_cons, List.foldl_nil, runOp_mark _ _ (by rw [hmarks]; rfl)] at hslash
  obtain ⟨l₁, hl₁, hp₁, hmarks₁, hrequest₁, hstate₁, hcore₁⟩ :=
    exists_inHead_path hslash hpath rfl (by show l.p + 0 + 1 + path.length ≤ _; omega)
  replace hp₁ : l₁.p = l.p + 1 + path.length := hp₁
  -- the space ends it
  have hspace : dispatch (l₁.parser.addNread 1) 32 (bytes "HTTP/1.1\r\n" ++ rest) =
      .next { l₁.parser.addNread 1 with state := .reqHttpStart } [.callbackData .url 0] := by
    have hstate' : (l₁.parser.addNread 1).state = .reqPath := hstate₁
    simp +decide [dispatch, hstate', onReqPath]
  replace hl₁ : InHead data l₁ (32 :: (bytes "HTTP/1.1\r\n" ++ rest)) := hl₁
  have hnext := hl₁.step (by rw [hstate₁]; rfl) (by omega) hspace rfl rfl
  have hdrop : data.drop l.p = 47 :: path ++ (bytes " HTTP/1.1\r\n" ++ rest) :=
    drop_of_heads hl.heads
  obtain ⟨hmarks₂, hrequest₂⟩ := runOp_callbackData l₁ .url 0 rfl
    (by rw [hmarks₁, hmarks]) hdrop (by rw [hp₁, List.length_cons]; omega)
  -- and the version follows
  have hversion := quietPath_versionRecords { l₁.parser.addNread 1 with state := .reqHttpStart } rfl
  obtain ⟨l₃, hl₃, hmarks₃, hcalls₃, hp₃, hparser₃⟩ :=
    hnext.quietPath hversion rfl (by show l₁.p + 0 + 1 + 10 ≤ _; omega)
  have hstate₃ : l₃.parser.state = .headerFieldStart := congrArg (·.state) hparser₃
  refine ⟨l₃, ⟨hl₃, by rw [hstate₃]; rfl, l₃.parser.addNread 1, [], ?_, rfl, ?_, rfl, ?_, ?_⟩, ?_⟩
  · intro ch tail _ _
    have hstate' : (l₃.parser.addNread 1).state = .headerFieldStart := hstate₃
    simp only [dispatch, hstate']
    rfl
  · have hcore₃ := congrArg HttpParser.core hparser₃
    exact hcore₃.trans (hcore₁.trans hcore)
  · rw [List.foldl_nil, hmarks₃]
    exact hmarks₂
  · rw [List.foldl_nil, Loop.request, hcalls₃]
    refine hrequest₂.trans ?_
    rw [hrequest₁]
    exact congrArg (HttpRequest.onData · (47 :: path) .url) hrequest
  · rw [hp₃]
    show l₁.p + 0 + 1 + 10 = _
    omega

/-! ## One header line -/

/-- The parser has read the name of a line and its colon. -/
structure BehindName (data : Bytes) (method : HttpMethod) (length : Option Nat) (r : HttpRequest)
    (key : Bytes) (l : Loop) (rest : Bytes) : Prop where
  at_ : InHead data l rest
  state : l.parser.state = .headerValueDiscardWs
  name : ∃ i, NameAt key l.parser.headerState i
  marks : l.marks = noMarks
  request : l.request data = r
  core : l.parser.core = headCore method length

/-- A token is the start of a name. -/
theorem onHeaderFieldStart_token (hch : token ch ≠ 0) (parser : HttpParser) :
    ∃ s, onHeaderFieldStart parser ch =
        .next { parser with index := 0, state := .headerField, headerState := s }
          [.mark .headerField] ∧ NameAt [token ch] s 0 := by
  have hends : ch ≠ CR ∧ ch ≠ LF := by
    constructor <;> rintro rfl <;> exact hch (by decide)
  refine ⟨_, ?_, nameAt_first (token ch)⟩
  rw [onHeaderFieldStart, if_neg hends.1, if_neg hends.2, if_neg hch]

/-- The parser is in the name of a line, of which it has read a part. -/
structure InName (data : Bytes) (method : HttpMethod) (length : Option Nat) (r : HttpRequest)
    (part : Bytes) (l : Loop) (rest : Bytes) : Prop where
  at_ : InHead data l rest
  state : l.parser.state = .headerField
  name : NameAt (part.map token) l.parser.headerState l.parser.index
  span : ∃ a, l.marks = Function.update noMarks .headerField (some a) ∧
    data.drop a = part ++ rest ∧ a + part.length = l.p
  request : l.request data = r
  core : l.parser.core = headCore method length

/-- The first letter of a name, which sets the mark. -/
theorem LineStart.exists_inName (h : LineStart data method length r l (ch :: rest))
    (hch : token ch ≠ 0) (hroom : l.p + 1 ≤ httpMaxHeaderSize) :
    ∃ l', InName data method length r [ch] l' rest ∧ l'.p = l.p + 1 := by
  obtain ⟨hat, hheader, parser, ops, hturns, hnread, hcore, hops, hmarks, hrequest⟩ := h
  have hblank : ch ≠ ' ' ∧ ch ≠ '\t' := by
    constructor <;> rintro rfl <;> exact hch (by decide)
  obtain ⟨s, hstart, hname⟩ := onHeaderFieldStart_token hch parser
  have ht := (hturns ch rest hblank.1 hblank.2).trans (congrArg (Transition.reexecute ops) hstart)
  have hnext := hat.step hheader hroom ht (by rw [← hnread]; rfl)
    (by rw [Transition.next, List.count_append, hops]; rfl)
  have hp : (ops.foldl Loop.runOp l).p = l.p := (foldl_runOp_spec ops l).1
  have hmark := runOp_mark (ops.foldl Loop.runOp l) .headerField
    (by rw [hmarks]; rfl)
  have hfold : (ops ++ [Op.mark .headerField]).foldl Loop.runOp l =
      (ops.foldl Loop.runOp l).runOp (.mark .headerField) := by
    rw [List.foldl_append, List.foldl_cons, List.foldl_nil]
  refine ⟨_, ⟨hnext, rfl, hname, ⟨l.p, ?_, drop_of_heads hat.heads, rfl⟩, ?_, hcore⟩, rfl⟩
  · show ((ops ++ [Op.mark .headerField]).foldl Loop.runOp l).marks = _
    rw [hfold, hmark, hp, hmarks]
  · show ((ops ++ [Op.mark .headerField]).foldl Loop.runOp l).request data = r
    rw [hfold, hmark]
    exact hrequest

/-- The rest of a name, and the colon. -/
theorem InName.exists_behindName {part word : Bytes}
    (h : InName data method length r part l (word ++ 58 :: rest))
    (hword : ∀ ch ∈ word, token ch ≠ 0) (hroom : l.p + word.length + 1 ≤ httpMaxHeaderSize) :
    ∃ l', BehindName data method length (r.onHeaderField (part ++ word))
        ((part ++ word).map token) l' rest ∧ l'.p = l.p + word.length + 1 := by
  obtain ⟨hat, hstate, hname, ⟨a, hmarks, hdrop, hlength⟩, hrequest, hcore⟩ := h
  have hheader : l.parser.state.parsingHeader := by
    rw [hstate]
    rfl
  obtain ⟨s, i, hscan, hname'⟩ := scanHeaderField_name (l.parser.addNread 1) 0 rest hname hword
  -- what the name adds to the count fits
  have hone := (@iteration_of_room l.parser 0 [] hheader
    (by rw [hat.counted]; omega)).2
  rw [hat.counted] at hone
  have hcount := nread_addNread { l.parser.addNread 1 with headerState := s, index := i }
    (0 + word.length) (by show (l.parser.addNread 1).nread.toNat + _ ≤ _; omega)
  have hover : (HttpParser.addNread { l.parser.addNread 1 with headerState := s, index := i }
      (0 + word.length)).headerOverflow = false := by
    rw [HttpParser.headerOverflow, hcount]
    show decide (_ < (l.parser.addNread 1).nread.toNat + _) = false
    rw [hone, decide_eq_false_iff_not]
    omega
  obtain ⟨c, tail, heq⟩ := List.exists_cons_of_ne_nil
    (List.append_ne_nil_of_right_ne_nil word (List.cons_ne_nil 58 rest))
  have ht : dispatch (l.parser.addNread 1) c tail =
      ⟨{ HttpParser.addNread { l.parser.addNread 1 with headerState := s, index := i }
          (0 + word.length) with state := .headerValueDiscardWs },
        [.callbackData .headerField (0 + word.length)], .next (0 + word.length)⟩ := by
    have hdispatch : dispatch (l.parser.addNread 1) c tail =
        onHeaderField (l.parser.addNread 1) (c :: tail) := by
      have hstate' : (l.parser.addNread 1).state = .headerField := hstate
      simp only [dispatch, hstate']
    rw [hdispatch, ← heq, onHeaderField, hscan]
    dsimp only
    rw [hover]
    rfl
  have htail : tail.drop (0 + word.length) = rest := by
    have hdropped := congrArg (List.drop (word.length + 1)) heq
    rw [List.drop_succ_cons, ← List.drop_drop, List.drop_left] at hdropped
    rw [Nat.zero_add]
    exact hdropped.symm
  have hnext := InHead.step (heq ▸ hat) hheader (by omega) ht hcount rfl
  rw [htail] at hnext
  rw [← List.append_assoc] at hdrop
  obtain ⟨hmarks', hrequest'⟩ := runOp_callbackData l .headerField (0 + word.length) rfl hmarks
    hdrop (by rw [List.length_append]; omega)
  refine ⟨_, ⟨hnext, rfl, ⟨i, ?_⟩, hmarks', ?_, hcore⟩, ?_⟩
  · rw [List.map_append]
    exact hname'
  · exact hrequest'.trans (congrArg (HttpRequest.onData · (part ++ word) .headerField) hrequest)
  · show l.p + (0 + word.length) + 1 = _
    omega

/-- The name of a line, and the colon. -/
theorem LineStart.exists_behindName (h : LineStart data method length r l (name ++ 58 :: rest))
    (hne : name ≠ []) (hname : ∀ ch ∈ name, token ch ≠ 0)
    (hroom : l.p + name.length + 1 ≤ httpMaxHeaderSize) :
    ∃ l', BehindName data method length (r.onHeaderField name) (name.map token) l' rest ∧
      l'.p = l.p + name.length + 1 := by
  obtain ⟨ch, word, rfl⟩ := List.exists_cons_of_ne_nil hne
  rw [List.length_cons] at hroom ⊢
  obtain ⟨l₁, hin, hp₁⟩ := LineStart.exists_inName h (hname ch List.mem_cons_self) (by omega)
  obtain ⟨l₂, hbehind, hp₂⟩ := hin.exists_behindName
    (fun c hc => hname c (List.mem_cons_of_mem _ hc)) (by omega)
  exact ⟨l₂, hbehind, by omega⟩

/-- The blanks behind the colon. -/
theorem BehindName.exists_behindBlanks {key blanks : Bytes}
    (h : BehindName data method length r key l (blanks ++ rest))
    (hblanks : ∀ ch ∈ blanks, ch = ' ' ∨ ch = '\t')
    (hroom : l.p + blanks.length ≤ httpMaxHeaderSize) :
    ∃ l', BehindName data method length r key l' rest ∧ l'.p = l.p + blanks.length := by
  induction blanks generalizing l with
  | nil => exact ⟨l, h, rfl⟩
  | cons ch blanks ih =>
    rw [List.length_cons] at hroom ⊢
    have hch : (ch = ' ' || ch = '\t') = true := by simpa using hblanks ch List.mem_cons_self
    have ht : dispatch (l.parser.addNread 1) ch (blanks ++ rest) =
        .next (l.parser.addNread 1) [] := by
      have hstate' : (l.parser.addNread 1).state = .headerValueDiscardWs := h.state
      simp only [dispatch, hstate', onHeaderValueDiscardWs, hch, if_true]
    have hat : InHead data l (ch :: (blanks ++ rest)) := h.at_
    have hnext := hat.quiet (by rw [h.state]; rfl) (by omega) ht rfl
    obtain ⟨l', hl', hp⟩ := ih ⟨hnext, h.state, h.name, h.marks, h.request, h.core⟩
      (fun c hc => hblanks c (List.mem_cons_of_mem _ hc)) (by show l.p + 1 + _ ≤ _; omega)
    refine ⟨l', hl', ?_⟩
    rw [hp]
    show l.p + 1 + blanks.length = _
    omega

/-- The parser is in the value of a line, of which it has read a part. -/
structure InValue (data : Bytes) (method : HttpMethod) (length : Option Nat) (r : HttpRequest)
    (part : Bytes) (l : Loop) (rest : Bytes) : Prop where
  at_ : InHead data l rest
  state : l.parser.state = .headerValue
  span : ∃ a, l.marks = Function.update noMarks .headerValue (some a) ∧
    data.drop a = part ++ rest ∧ a + part.length = l.p
  request : l.request data = r
  core : l.parser.core = headCore method length

/-- The first byte of a value. -/
theorem BehindName.exists_inValue {key : Bytes} {length' : Option Nat}
    (h : BehindName data method length r key l (ch :: rest))
    (hch : isValueByte ch ∧ ch ≠ ' ' ∧ ch ≠ '\t')
    (hstart : onHeaderValueStart (l.parser.addNread 1) ch = .next parser [.mark .headerValue])
    (hnread : parser.nread = (l.parser.addNread 1).nread) (hstate : parser.state = .headerValue)
    (hcore : parser.core = headCore method length') (hroom : l.p + 1 ≤ httpMaxHeaderSize) :
    ∃ l', InValue data method length' r [ch] l' rest ∧ l'.p = l.p + 1 ∧ l'.parser = parser := by
  have hends : ch ≠ CR ∧ ch ≠ LF := by
    have hbyte := hch.1
    simp only [isValueByte, Bool.and_eq_true, decide_eq_true_eq] at hbyte
    exact ⟨hbyte.1.2, hbyte.2⟩
  have ht : dispatch (l.parser.addNread 1) ch rest = .next parser [.mark .headerValue] := by
    have hstate' : (l.parser.addNread 1).state = .headerValueDiscardWs := h.state
    simp only [dispatch, hstate', onHeaderValueDiscardWs, hch, hends, hstart, if_false,
      decide_false, Bool.or_false, Bool.false_eq_true]
  have hnext := h.at_.step (by rw [h.state]; rfl) hroom ht (by rw [hnread]; rfl) rfl
  have hmark := runOp_mark l .headerValue (by rw [h.marks]; rfl)
  rw [h.marks] at hmark
  refine ⟨_, ⟨hnext, hstate, ⟨l.p, ?_, drop_of_heads h.at_.heads, rfl⟩, ?_, hcore⟩, rfl, rfl⟩
  · exact congrArg Loop.marks hmark
  · exact (congrArg (Loop.request data) hmark).trans h.request

/-- A header that is finished, and is not the one of chunks, leaves the record as it was. -/
theorem core_finishHeader (parser : HttpParser)
    (h : parser.headerState ≠ .transferEncodingChunked) :
    (finishHeader parser).core = parser.core ∧ (finishHeader parser).nread = parser.nread := by
  unfold finishHeader
  split <;> first
    | exact ⟨rfl, rfl⟩
    | exact absurd ‹_› h

/-- The rest of a value, and the end of the line. -/
theorem InValue.exists_lineStart {part : Bytes} {scanned : HttpParser} {s : HeaderState}
    {length' : Option Nat} (h : InValue data method length r part l (bs ++ (crlf ++ rest)))
    (hscan : scanHeaderValue (l.parser.addNread 1) l.parser.headerState 0 0
      (bs ++ CR :: LF :: rest) = .cr scanned s (0 + bs.length))
    (hs : s ≠ .transferEncodingChunked) (hcore : scanned.core = headCore method length')
    (hnread : scanned.nread = (l.parser.addNread 1).nread)
    (hroom : l.p + bs.length + 2 ≤ httpMaxHeaderSize) :
    ∃ l', LineStart data method length' (r.onHeaderValue (part ++ bs)) l' rest ∧
      l'.p = l.p + bs.length + 2 := by
  obtain ⟨hat, hstate, ⟨a, hmarks, hdrop, hlength⟩, hrequest, -⟩ := h
  have hheader : l.parser.state.parsingHeader := by
    rw [hstate]
    rfl
  have hone := (@iteration_of_room l.parser 0 [] hheader
    (by rw [hat.counted]; omega)).2
  rw [hat.counted] at hone
  -- what the value adds to the count fits
  have hcount := nread_addNread { scanned with state := .headerAlmostDone, headerState := s }
    (0 + bs.length) (by show scanned.nread.toNat + _ ≤ _; rw [hnread]; omega)
  replace hcount : (HttpParser.addNread { scanned with
      state := .headerAlmostDone, headerState := s } (0 + bs.length)).nread.toNat =
        (l.parser.addNread 1).nread.toNat + (0 + bs.length) := by
    rw [hcount, ← hnread]
  have hover : (HttpParser.addNread { scanned with
      state := .headerAlmostDone, headerState := s } (0 + bs.length)).headerOverflow = false := by
    rw [HttpParser.headerOverflow, hcount, hone, decide_eq_false_iff_not]
    omega
  obtain ⟨c, tail, heq⟩ := List.exists_cons_of_ne_nil
    (List.append_ne_nil_of_right_ne_nil bs (List.cons_ne_nil CR (LF :: rest)))
  have ht : dispatch (l.parser.addNread 1) c tail =
      ⟨HttpParser.addNread { scanned with state := .headerAlmostDone, headerState := s }
          (0 + bs.length),
        [.callbackData .headerValue (0 + bs.length)], .next (0 + bs.length)⟩ := by
    have hdispatch : dispatch (l.parser.addNread 1) c tail =
        onHeaderValue (l.parser.addNread 1) (c :: tail) := by
      have hstate' : (l.parser.addNread 1).state = .headerValue := hstate
      simp only [dispatch, hstate']
    have hscan' : scanHeaderValue (l.parser.addNread 1) (l.parser.addNread 1).headerState 0 0
        (bs ++ CR :: LF :: rest) = .cr scanned s (0 + bs.length) := hscan
    rw [hdispatch, ← heq, onHeaderValue, hscan']
    dsimp only
    rw [hover]
    rfl
  have htail : tail.drop (0 + bs.length) = LF :: rest := by
    have hdropped := congrArg (List.drop (bs.length + 1)) heq
    rw [List.drop_succ_cons, ← List.drop_drop, List.drop_left] at hdropped
    rw [Nat.zero_add]
    exact hdropped.symm
  have hcr := InHead.step (heq ▸ hat) hheader (by omega) ht hcount rfl
  rw [htail] at hcr
  rw [← List.append_assoc] at hdrop
  obtain ⟨hmarks', hrequest'⟩ := runOp_callbackData l .headerValue (0 + bs.length) rfl hmarks
    hdrop (by rw [List.length_append]; omega)
  -- the line feed
  let ended : HttpParser := { HttpParser.addNread (HttpParser.addNread { scanned with
    state := .headerAlmostDone, headerState := s } (0 + bs.length)) 1 with
    state := .headerValueLws }
  have htLf : dispatch (HttpParser.addNread (HttpParser.addNread { scanned with
      state := .headerAlmostDone, headerState := s } (0 + bs.length)) 1) LF rest =
        .next ended [] := rfl
  have hlf := hcr.quiet rfl (by show l.p + (0 + bs.length) + 1 + 1 ≤ _; omega) htLf rfl
  obtain ⟨hfinish, hfinishNread⟩ := core_finishHeader (ended.addNread 1) hs
  refine ⟨_, ⟨hlf, rfl, { finishHeader (ended.addNread 1) with state := .headerFieldStart }, [],
    fun c tail hspace htab => ?_, hfinishNread, ?_, rfl, ?_, ?_⟩, ?_⟩
  · show onHeaderValueLws _ c = _
    rw [onHeaderValueLws, if_neg (by simp [hspace, htab])]
    rfl
  · exact hfinish.trans hcore
  · exact hmarks'
  · exact hrequest'.trans (congrArg (HttpRequest.onData · (part ++ bs) .headerValue) hrequest)
  · show l.p + (0 + bs.length) + 1 + 1 = _
    omega

/-- What a line is taken for that is about neither the body nor another protocol. -/
theorem HeaderLine.Proper.plain {s : HeaderState} {i : BitVec 7} (hf : f.Proper)
    (hkey : f.isContentLength = false) (h : NameAt f.key s i) :
    s.passesOver = true ∨ s = .connection := by
  by_cases hwatched : ∃ w ∈ watchedNames, f.key = bytes w.word
  · obtain ⟨w, hmem, heq⟩ := hwatched
    right
    rw [heq] at h
    rw [h.watched hmem]
    have hne : bytes w.word ≠ bytes "content-length" := heq ▸ of_decide_eq_false hkey
    have hidentity := heq ▸ hf.identity
    revert hne hidentity hmem
    clear h heq
    revert w
    decide
  · exact .inl (h.unwatched fun w hw heq => hwatched ⟨w, hw, heq⟩)

/-- The first byte of the value of such a line. -/
theorem onHeaderValueStart_plain {s : HeaderState} (parser : HttpParser)
    (hs : parser.headerState = s) (hplain : s.passesOver = true ∨ s = .connection) (ch : UInt8) :
    ∃ s', onHeaderValueStart parser ch =
        .next { parser with state := .headerValue, index := 0, headerState := s' }
          [.mark .headerValue] ∧ s'.ofConnection := by
  rcases hplain with hpass | rfl
  · refine ⟨.general, ?_, rfl⟩
    unfold onHeaderValueStart
    dsimp only
    rw [hs]
    cases s <;> first
      | rfl
      | exact absurd hpass (by decide)
  · refine ⟨if lower ch = 'k' then .matchingConnectionKeepAlive
      else if lower ch = 'c' then .matchingConnectionClose
      else if lower ch = 'u' then .matchingConnectionUpgrade
      else .matchingConnectionToken, ?_, ?_⟩
    · unfold onHeaderValueStart
      dsimp only
      rw [hs]
    · split_ifs <;> rfl

/-- A value that is empty. -/
theorem BehindName.exists_lineStart_nil {key : Bytes}
    (h : BehindName data method length r key l (crlf ++ rest))
    (hs : l.parser.headerState ≠ .transferEncodingChunked)
    (hroom : l.p + 2 ≤ httpMaxHeaderSize) :
    ∃ l', LineStart data method length (r.onHeaderValue []) l' rest ∧ l'.p = l.p + 2 := by
  have hcr : dispatch (l.parser.addNread 1) CR (LF :: rest) =
      .next { l.parser.addNread 1 with state := .headerValueDiscardWsAlmostDone } [] := by
    have hstate' : (l.parser.addNread 1).state = .headerValueDiscardWs := h.state
    simp +decide [dispatch, hstate', onHeaderValueDiscardWs]
  have hat : InHead data l (CR :: LF :: rest) := h.at_
  have hnext := hat.quiet (by rw [h.state]; rfl) (by omega) hcr rfl
  let ended : HttpParser := { HttpParser.addNread { l.parser.addNread 1 with
    state := .headerValueDiscardWsAlmostDone } 1 with state := .headerValueDiscardLws }
  have htLf : dispatch (HttpParser.addNread { l.parser.addNread 1 with
      state := .headerValueDiscardWsAlmostDone } 1) LF rest = .next ended [] := rfl
  have hlf := hnext.quiet rfl (by show l.p + 1 + 1 ≤ _; omega) htLf rfl
  -- the mark is set and passed on where the next line begins
  obtain ⟨hfinish, hnread⟩ := core_finishHeader (ended.addNread 1) hs
  have hmark := runOp_mark { l with parser := ended, p := l.p + 1 + 1 } .headerValue
    (by show l.marks _ = none; rw [h.marks]; rfl)
  have hdrop : data.drop (l.p + 1 + 1) = [] ++ data.drop (l.p + 1 + 1) := rfl
  obtain ⟨hmarks, hrequest⟩ := runOp_callbackData
    { l with
      parser := ended, p := l.p + 1 + 1
      marks := Function.update l.marks .headerValue (some (l.p + 1 + 1)) } .headerValue 0 rfl
    (by rw [h.marks]) hdrop rfl
  refine ⟨_, ⟨hlf, rfl, { finishHeader (ended.addNread 1) with state := .headerFieldStart },
    [.mark .headerValue, .callbackData .headerValue 0], fun c tail hspace htab => ?_, hnread, ?_,
    rfl, ?_, ?_⟩, rfl⟩
  · show onHeaderValueDiscardLws _ c = _
    rw [onHeaderValueDiscardLws, if_neg (by simp [hspace, htab])]
  · exact hfinish.trans h.core
  · rw [List.foldl_cons, List.foldl_cons, List.foldl_nil, hmark]
    exact hmarks
  · rw [List.foldl_cons, List.foldl_cons, List.foldl_nil, hmark]
    exact hrequest.trans (congrArg (HttpRequest.onData · [] .headerValue) h.request)

/-- The length of a line. -/
theorem HeaderLine.length_text (f : HeaderLine) :
    f.text.length = f.name.length + 1 + f.blanks.length + f.value.length + 2 := by
  simp only [text, crlf, List.length_append, List.length_cons, List.length_nil]
  omega

/-- A header line is read, and its value is kept under its name. -/
theorem LineStart.line (h : LineStart data method length r l (f.text ++ rest)) (hf : f.Proper)
    (hkey : f.isContentLength = false) (hroom : l.p + f.text.length ≤ httpMaxHeaderSize) :
    ∃ l', LineStart data method length ((r.onHeaderField f.name).onHeaderValue f.value) l' rest ∧
      l'.p = l.p + f.text.length := by
  rw [f.length_text] at hroom ⊢
  rw [HeaderLine.text, List.append_assoc, List.cons_append, List.append_assoc,
    List.append_assoc] at h
  obtain ⟨l₁, h₁, hp₁⟩ := h.exists_behindName hf.name_ne hf.name (by omega)
  obtain ⟨l₂, h₂, hp₂⟩ := h₁.exists_behindBlanks hf.blanks (by omega)
  obtain ⟨i, hname⟩ := h₂.name
  have hplain := hf.plain hkey hname
  have hbytes := hf.value
  have hhead := hf.value_head
  generalize f.value = v at *
  cases v with
  | nil =>
    have hs : l₂.parser.headerState ≠ .transferEncodingChunked := by
      intro hchunked
      rw [hchunked] at hplain
      revert hplain
      decide
    obtain ⟨l₃, h₃, hp₃⟩ := h₂.exists_lineStart_nil hs (by omega)
    exact ⟨l₃, h₃, by rw [List.length_nil]; omega⟩
  | cons ch bs =>
    rw [List.length_cons] at hroom ⊢
    obtain ⟨s', hstart, hs'⟩ := onHeaderValueStart_plain (l₂.parser.addNread 1) rfl
      hplain ch
    have hbyte := hbytes ch List.mem_cons_self
    obtain ⟨l₃, h₃, hp₃, hparser₃⟩ := BehindName.exists_inValue h₂ ⟨hbyte, hhead ch rfl⟩ hstart rfl
      rfl h₂.core (by omega)
    have hmax : httpMaxHeaderSize = 81920 := rfl
    obtain ⟨scanned, s'', hscan, hs'', hcore, hnread⟩ := scanHeaderValue_plain
      (s := l₃.parser.headerState) (l₃.parser.addNread 1) 0 (LF :: rest)
      (by rw [hparser₃]; exact hs') (fun c hc => hbytes c (List.mem_cons_of_mem _ hc)) (by omega)
    have hne : s'' ≠ .transferEncodingChunked := by
      rintro rfl
      cases hs''
    obtain ⟨l₄, h₄, hp₄⟩ := h₃.exists_lineStart hscan hne (hcore.trans h₃.core) hnread (by omega)
    exact ⟨l₄, h₄, by omega⟩

/-- The digits that are printed for a number. -/
theorem decimal_spec (n : Nat) :
    decimal n ≠ [] ∧ (∀ ch ∈ decimal n, isNum ch) ∧ readDecimal 0 (decimal n) = n := by
  have hdecimal : decimal n = (Nat.toDigits 10 n).map Char.toUInt8 := by
    show bytes (toString n) = _
    rw [bytes, ← Nat.toList_repr]
    rfl
  have hchar : ∀ c ∈ Nat.toDigits 10 n, isNum c.toUInt8 ∧
      (c.toUInt8 - 48).toNat = c.toNat - '0'.toNat := by
    intro c hc
    have hdigit := Nat.isDigit_of_mem_toDigits (by decide) (by decide) hc
    have hall : ∀ k < 58, 48 ≤ k → isNum (Char.ofNat k).toUInt8 ∧
        ((Char.ofNat k).toUInt8 - 48).toNat = (Char.ofNat k).toNat - '0'.toNat := by decide
    simp only [Char.isDigit, Bool.and_eq_true, decide_eq_true_eq] at hdigit
    have hlow : 48 ≤ c.toNat := hdigit.1
    have hhigh : c.toNat ≤ 57 := hdigit.2
    have hbyte := hall c.toNat (by omega) hlow
    rwa [Char.ofNat_toNat] at hbyte
  refine ⟨?_, ?_, ?_⟩
  · rw [hdecimal]
    simp
  · rw [hdecimal, List.forall_mem_map]
    exact fun c hc => (hchar c hc).1
  · rw [hdecimal, readDecimal, List.foldl_map]
    refine Eq.trans ?_ (Nat.ofDigitChars_ten_toDigits (n := n))
    rw [Nat.ofDigitChars_eq_foldl]
    exact List.foldl_ext _ _ 0 fun m c hc => by rw [(hchar c hc).2, Nat.mul_comm]

/-- The line that announces the length of the body is read. -/
theorem LineStart.announce (h : LineStart data method none r l (f.text ++ rest)) (hf : f.Proper)
    (hkey : f.isContentLength = true) (hvalue : f.value = decimal n) (hn : n ≤ maxContentLength)
    (hroom : l.p + f.text.length ≤ httpMaxHeaderSize) :
    ∃ l', LineStart data method (some n) ((r.onHeaderField f.name).onHeaderValue f.value) l' rest ∧
      l'.p = l.p + f.text.length := by
  rw [f.length_text] at hroom ⊢
  rw [HeaderLine.text, List.append_assoc, List.cons_append, List.append_assoc,
    List.append_assoc] at h
  obtain ⟨l₁, h₁, hp₁⟩ := h.exists_behindName hf.name_ne hf.name (by omega)
  obtain ⟨l₂, h₂, hp₂⟩ := h₁.exists_behindBlanks hf.blanks (by omega)
  obtain ⟨i, hname⟩ := h₂.name
  have hkey' : f.name.map token = bytes "content-length" := of_decide_eq_true hkey
  rw [hkey'] at hname
  have hs : l₂.parser.headerState = .contentLength :=
    hname.watched (w := ⟨"content-length", .matchingContentLength, .contentLength⟩) (by decide)
  obtain ⟨hne, hdigits, hread⟩ := decimal_spec n
  have hbytes := hf.value
  have hhead := hf.value_head
  rw [hvalue] at hroom h₂ hbytes hhead ⊢
  generalize decimal n = v at *
  obtain ⟨ch, bs, rfl⟩ := List.exists_cons_of_ne_nil hne
  rw [List.length_cons] at hroom ⊢
  have hnum := hdigits ch List.mem_cons_self
  -- the first digit
  have hdigit : (ch - 48).toUInt64 = .ofNat (ch - 48).toNat := by
    apply UInt64.toNat_inj.mp
    have hlt := (ch - 48).toNat_lt
    rw [UInt8.toNat_toUInt64, UInt64.toNat_ofNat']
    omega
  have hcore₂ := h₂.core
  have hannounced : l₂.parser.flags.contentLength = false :=
    congrArg (fun parser : HttpParser => parser.flags.contentLength) hcore₂
  have hstart : onHeaderValueStart (l₂.parser.addNread 1) ch =
      .next { l₂.parser.addNread 1 with
        state := .headerValue, index := 0, flags := { l₂.parser.flags with contentLength := true }
        contentLength := .ofNat (ch - 48).toNat } [.mark .headerValue] := by
    have hs' : (l₂.parser.addNread 1).headerState = .contentLength := hs
    have hannounced' : (l₂.parser.addNread 1).flags.contentLength = false := hannounced
    unfold onHeaderValueStart
    dsimp only
    rw [hs']
    dsimp only
    rw [hannounced', hnum, hdigit]
    rfl
  have hcore : ∀ m, HttpParser.core { l₂.parser.addNread 1 with
      state := .headerValue, index := 0, flags := { l₂.parser.flags with contentLength := true }
      contentLength := .ofNat m } = headCore method (some m) := fun m =>
    congrArg (fun parser : HttpParser => { parser with
      flags := { parser.flags with contentLength := true }, contentLength := .ofNat m }) hcore₂
  obtain ⟨l₃, h₃, hp₃, hparser₃⟩ := BehindName.exists_inValue h₂
    ⟨hbytes ch List.mem_cons_self, hhead ch rfl⟩ hstart rfl rfl (hcore _) (by omega)
  -- and the others
  have hrest : readDecimal (ch - 48).toNat bs = n := by
    rw [← hread, readDecimal, readDecimal, List.foldl_cons, Nat.zero_mul, Nat.zero_add]
  have hscan := scanHeaderValue_digits (l₃.parser.addNread 1) 0 (LF :: rest)
    (fun c hc => hdigits c (List.mem_cons_of_mem _ hc))
    (hrest.symm ▸ hn) (by rw [hparser₃]; rfl)
  have hstate₃ : l₃.parser.headerState = .contentLength := by
    rw [hparser₃]
    exact hs
  rw [← hstate₃, hrest] at hscan
  obtain ⟨l₄, h₄, hp₄⟩ := h₃.exists_lineStart hscan (by rw [hstate₃]; decide)
    (by rw [hparser₃]; exact hcore n) rfl (by omega)
  exact ⟨l₄, h₄, by omega⟩

/-! ## The end of the head, and the body -/

/-- What a header line leaves in a request. -/
def HttpRequest.readLine (r : HttpRequest) (f : HeaderLine) : HttpRequest :=
  (r.onHeaderField f.name).onHeaderValue f.value

/-- Header lines that do not announce the length of the body. -/
theorem LineStart.lines {lines : List HeaderLine}
    (h : LineStart data method length r l (lines.flatMap HeaderLine.text ++ rest))
    (hlines : ∀ f ∈ lines, f.Proper ∧ f.isContentLength = false)
    (hroom : l.p + (lines.flatMap HeaderLine.text).length ≤ httpMaxHeaderSize) :
    ∃ l', LineStart data method length (lines.foldl HttpRequest.readLine r) l' rest ∧
      l'.p = l.p + (lines.flatMap HeaderLine.text).length := by
  induction lines generalizing l r with
  | nil => exact ⟨l, h, rfl⟩
  | cons f lines ih =>
    rw [List.flatMap_cons, List.length_append] at hroom ⊢
    rw [List.flatMap_cons, List.append_assoc] at h
    obtain ⟨hf, hkey⟩ := hlines f List.mem_cons_self
    obtain ⟨l₁, h₁, hp₁⟩ := h.line hf hkey (by omega)
    obtain ⟨l₂, h₂, hp₂⟩ := ih h₁ (fun f hmem => hlines f (List.mem_cons_of_mem _ hmem)) (by omega)
    exact ⟨l₂, h₂, by omega⟩

/-- The parser waits for another message, or for the end of the connection. -/
theorem newMessage_cases (h : parser.type = .request) :
    newMessage parser = .startReq ∨ newMessage parser = .dead := by
  rw [newMessage, startState, if_pos h]
  split_ifs
  · exact .inl rfl
  · exact .inr rfl

/-- The line feed of the empty line. -/
theorem onHeadersAlmostDone_eq (parser : HttpParser) (hcore : parser.core = headCore method length)
    (hmethod : method ≠ .CONNECT) (hlength : ∀ n ∈ length, n ≤ maxContentLength) :
    ∃ parser' : HttpParser, parser'.type = .request ∧ parser'.upgrade = false ∧
      onHeadersAlmostDone parser LF = .reexecute [.headersComplete method]
        (if length.getD 0 = 0 then
          .next { parser' with state := newMessage parser' } [.messageComplete]
        else .next { parser' with state := .bodyIdentity, contentLength := .ofNat (length.getD 0) }
          []) := by
  have hfield : ∀ {α : Type} (get : HttpParser → α),
      get parser.core = get (headCore method length) := fun get => congrArg get hcore
  have htype : parser.type = .request := hfield (·.type)
  have hmethod' : parser.method = method := hfield (·.method)
  have htrailing : parser.flags.trailing = false := hfield (·.flags.trailing)
  have hchunked : parser.flags.chunked = false := hfield (·.flags.chunked)
  have hupgrade : parser.flags.upgrade = false := hfield (·.flags.upgrade)
  have hskip : parser.flags.skipbody = false := hfield (·.flags.skipbody)
  have hcontent : parser.contentLength = (headCore method length).contentLength :=
    hfield (·.contentLength)
  have heof : ∀ parser : HttpParser, parser.type = .request → httpMessageNeedsEof parser = false :=
    fun parser h => by rw [httpMessageNeedsEof, if_pos h]
  refine ⟨{ parser with state := .headersDone, upgrade := false, nread := 0 }, htype, rfl, ?_⟩
  simp only [onHeadersAlmostDone, Transition.strictCheck, ne_eq, not_true, decide_false,
    Bool.false_eq_true, if_false, htrailing, hchunked, Bool.false_and, hupgrade, hmethod', hmethod,
    Bool.or_false, onHeadersDone, hskip]
  congr 1
  cases length with
  | none =>
    rw [hcontent]
    simp [headCore, HttpParser.core, heof, htype, show ullongMax ≠ 0 from by decide]
  | some n =>
    have hmax := hlength n rfl
    have hval : maxContentLength = 2 ^ 64 - 16 := rfl
    have hne : UInt64.ofNat n ≠ ullongMax := by
      intro heq
      have := congrArg UInt64.toNat heq
      rw [UInt64.toNat_ofNat', show ullongMax.toNat = 2 ^ 64 - 1 from rfl] at this
      omega
    have hzero : UInt64.ofNat n = 0 ↔ n = 0 := by
      rw [← UInt64.toNat_inj, UInt64.toNat_ofNat']
      show n % 2 ^ 64 = 0 ↔ _
      omega
    replace hcontent : parser.contentLength = .ofNat n := hcontent
    simp [hcontent, hne, hzero]

/-- The parser is before the line feed of the empty line. -/
structure HeadEnd (data : Bytes) (method : HttpMethod) (length : Option Nat) (r : HttpRequest)
    (l : Loop) (rest : Bytes) : Prop where
  at_ : InHead data l (LF :: rest)
  state : l.parser.state = .headersAlmostDone
  marks : l.marks = noMarks
  request : l.request data = r
  core : l.parser.core = headCore method length
  room : l.p + 1 ≤ httpMaxHeaderSize

/-- The carriage return of the empty line. -/
theorem LineStart.exists_headEnd (h : LineStart data method length r l (crlf ++ rest))
    (hroom : l.p + 2 ≤ httpMaxHeaderSize) : ∃ l', HeadEnd data method length r l' rest := by
  obtain ⟨hat, hheader, parser, ops, hturns, hnread, hcore, hops, hmarks, hrequest⟩ := h
  replace hat : InHead data l (CR :: LF :: rest) := hat
  have ht : dispatch (l.parser.addNread 1) CR (LF :: rest) =
      ⟨{ parser with state := .headersAlmostDone }, ops ++ [], .next 0⟩ :=
    hturns CR (LF :: rest) (by decide) (by decide)
  have hcr := hat.step hheader (by omega) ht (by rw [← hnread]; rfl)
    (by rw [List.append_nil, hops])
  rw [List.append_nil, List.drop_zero] at hcr
  refine ⟨_, hcr, rfl, hmarks, hrequest, hcore, ?_⟩
  show l.p + 0 + 1 + 1 ≤ _
  omega

/-- The line feed of the empty line. -/
theorem HeadEnd.iteration_eq (h : HeadEnd data method length r l rest) :
    iteration l.parser LF rest = onHeadersAlmostDone (l.parser.addNread 1) LF := by
  have hdispatch : dispatch (l.parser.addNread 1) LF rest =
      onHeadersAlmostDone (l.parser.addNread 1) LF := by
    have hs : (l.parser.addNread 1).state = .headersAlmostDone := h.state
    simp only [dispatch, hs]
  rw [(@iteration_of_room l.parser LF rest (by rw [h.state]; rfl)
    (by rw [h.at_.counted]; exact h.room)).1, hdispatch]

/-- The parser has read one message, with everything that belongs to it, and nothing is behind. The
last iteration has completed it. -/
structure MessageEnd (data : Bytes) (r : HttpRequest) (l : Loop) : Prop where
  heads : Heads (.enter (httpParserInit .request)) data l []
  last : ∃ l₀ ch tail, Heads (.enter (httpParserInit .request)) data l₀ (ch :: tail) ∧
    l₀.completed = 0 ∧ (iteration l₀.parser ch tail).exit = .next tail.length
  marks : l.marks = noMarks
  request : l.request data = r
  completed : l.completed = 1
  state : l.parser.state = .startReq ∨ l.parser.state = .dead

/-- A message that has no body ends with its head. -/
theorem HeadEnd.exists_messageEnd (h : HeadEnd data method length r l [])
    (hmethod : method ≠ .CONNECT) (hlength : length.getD 0 = 0) :
    ∃ l', MessageEnd data (r.onHeadersComplete method).onMessageComplete l' := by
  have hnone : ∀ n ∈ length, n ≤ maxContentLength := by
    rintro n rfl
    rw [Option.getD_some] at hlength
    omega
  obtain ⟨parser, htype, -, ht⟩ :=
    onHeadersAlmostDone_eq (l.parser.addNread 1) h.core hmethod hnone
  rw [if_pos hlength, ← h.iteration_eq] at ht
  have hexit : (iteration l.parser LF []).exit = .next 0 := by
    rw [ht]
    rfl
  have hnext := h.at_.heads.next hexit
  have hadvance : l.advance LF [] 0 = { l with
      parser := { parser with state := newMessage parser }, p := l.p + 0 + 1
      calls := l.calls ++ [.onHeadersComplete method] ++ [.onMessageComplete] } := by
    rw [Loop.advance, ht]
    rfl
  rw [hadvance] at hnext
  refine ⟨_, hnext, ⟨l, LF, [], h.at_.heads, h.at_.completed, hexit⟩, h.marks, ?_, ?_,
    newMessage_cases htype⟩
  · rw [← h.request, Loop.request, List.foldl_append, List.foldl_append]
    rfl
  · have hzero : l.calls.count .onMessageComplete = 0 := h.at_.completed
    simp [Loop.completed, hzero]

/-- The end of a message on a connection that is not handed over. -/
theorem onMessageDone_of_upgrade (parser : HttpParser) (extra : Nat)
    (h : parser.upgrade = false) :
    onMessageDone parser extra =
      ⟨{ parser with state := newMessage parser }, [.messageComplete], .next extra⟩ := by
  simp [onMessageDone, h]

/-- The body of a message, of which all bytes have come. -/
theorem messageEnd_of_bodyStart {body : Bytes} (hne : body ≠ [])
    (hbody : body.length ≤ maxContentLength)
    (hheads : Heads (.enter (httpParserInit .request)) data l body) (hmarks : l.marks = noMarks)
    (hrequest : l.request data = r) (hcompleted : l.completed = 0)
    (hs : l.parser.state = .bodyIdentity) (htype : l.parser.type = .request)
    (hupgrade : l.parser.upgrade = false) (hlength : l.parser.contentLength = .ofNat body.length) :
    ∃ l', MessageEnd data (r.onBody body).onMessageComplete l' := by
  obtain ⟨ch, tail, rfl⟩ := List.exists_cons_of_ne_nil hne
  have hmax : maxContentLength = 2 ^ 64 - 16 := rfl
  have hnat : l.parser.contentLength.toNat = (ch :: tail).length := by
    rw [hlength, UInt64.toNat_ofNat']
    omega
  have hneg : ¬ (l.parser.contentLength = 0 || l.parser.contentLength = ullongMax) := by
    rw [Bool.or_eq_true, decide_eq_true_eq, decide_eq_true_eq, ← UInt64.toNat_inj,
      ← UInt64.toNat_inj, hnat, List.length_cons, show ullongMax.toNat = 2 ^ 64 - 1 from rfl]
    rw [List.length_cons] at hbody
    show ¬ (tail.length + 1 = 0 ∨ _)
    omega
  have hread : toRead l.parser (ch :: tail) = tail.length + 1 := by
    rw [toRead, hnat, Nat.min_self, List.length_cons]
  have hleft : l.parser.contentLength - UInt64.ofNat (tail.length + 1) = 0 := by
    rw [hlength, List.length_cons, UInt64.sub_self]
  -- the record behind the body
  let done : HttpParser := { l.parser with contentLength := 0, state := .messageDone }
  have hiter : iteration l.parser ch tail =
      ⟨{ done with state := newMessage done },
        [.mark .body, .callbackData .body (tail.length + 1), .messageComplete],
        .next tail.length⟩ := by
    have hheader : l.parser.state.parsingHeader = false := by
      rw [hs]
      rfl
    have hdispatch : dispatch l.parser ch tail = onBodyIdentity l.parser (ch :: tail) := by
      simp only [dispatch, hs]
    rw [iteration, hheader, if_neg Bool.false_ne_true, hdispatch, onBodyIdentity, if_neg hneg]
    simp only [hread, hleft, if_true]
    exact congrArg (Transition.reexecute [.mark .body, .callbackData .body (tail.length + 1)])
      (onMessageDone_of_upgrade done tail.length hupgrade)
  have hexit : (iteration l.parser ch tail).exit = .next tail.length := by
    rw [hiter]
  have hnext := hheads.next hexit
  rw [List.drop_length] at hnext
  have hdrop : data.drop l.p = ch :: tail ++ [] := by
    rw [List.append_nil]
    exact drop_of_heads hheads
  have hmark := runOp_mark l .body (by rw [hmarks]; rfl)
  obtain ⟨hmarks', hrequest'⟩ := runOp_callbackData
    { l with marks := Function.update l.marks .body (some l.p) } .body (tail.length + 1)
    rfl (by rw [hmarks]) hdrop rfl
  rw [← hmark] at hmarks' hrequest'
  have hrun : (l.advance ch tail tail.length).calls =
      ((l.runOp (.mark .body)).runOp (.callbackData .body (tail.length + 1))).calls ++
        [.onMessageComplete] ∧ (l.advance ch tail tail.length).marks =
      ((l.runOp (.mark .body)).runOp (.callbackData .body (tail.length + 1))).marks := by
    rw [Loop.advance, hiter]
    exact ⟨rfl, rfl⟩
  refine ⟨_, hnext, ⟨l, ch, tail, hheads, hcompleted, hexit⟩, hrun.2.trans hmarks', ?_, ?_, ?_⟩
  · rw [Loop.request, hrun.1, List.foldl_append]
    show (Loop.request data _).onMessageComplete = _
    rw [hrequest', hmark, ← hrequest]
    rfl
  · have hcount : (l.advance ch tail tail.length).completed = l.completed + _ := completed_run l _
    rw [hcount, hcompleted, hiter]
    rfl
  · have hstate : (l.advance ch tail tail.length).parser.state = newMessage done := by
      rw [Loop.advance, hiter]
      rfl
    rw [hstate]
    exact newMessage_cases htype

/-- A message that has a body. -/
theorem HeadEnd.exists_messageEnd_body {body : Bytes}
    (h : HeadEnd data method (some body.length) r l body) (hmethod : method ≠ .CONNECT)
    (hne : body ≠ []) (hbody : body.length ≤ maxContentLength) :
    ∃ l', MessageEnd data ((r.onHeadersComplete method).onBody body).onMessageComplete l' := by
  obtain ⟨parser, htype, hupgrade, ht⟩ := onHeadersAlmostDone_eq (l.parser.addNread 1)
    h.core hmethod (fun n hn => Option.some.inj hn ▸ hbody)
  rw [if_neg (by simpa using hne), ← h.iteration_eq] at ht
  have hexit : (iteration l.parser LF body).exit = .next 0 := by
    rw [ht]
    rfl
  have hnext := h.at_.heads.next hexit
  have hadvance : l.advance LF body 0 = { l with
      parser := { parser with state := .bodyIdentity, contentLength := .ofNat body.length }
      p := l.p + 0 + 1, calls := l.calls ++ [.onHeadersComplete method] } := by
    rw [Loop.advance, ht]
    rfl
  rw [hadvance, List.drop_zero] at hnext
  refine messageEnd_of_bodyStart hne hbody hnext h.marks ?_ ?_ rfl htype hupgrade rfl
  · rw [← h.request, Loop.request, List.foldl_append]
    rfl
  · have hzero : l.calls.count .onMessageComplete = 0 := h.at_.completed
    simp [Loop.completed, hzero]

/-- A request that is read to its end is stored as it is. -/
theorem MessageEnd.append (h : MessageEnd data r l) (hne : data ≠ []) :
    Complete data ∧ ∃ parser, HttpRequest.fresh.append data = some { r with parser } := by
  have hdone : mainLoop (.enter (httpParserInit .request)) 0 data = .done l := by
    rw [h.heads.mainLoop_eq]
    rfl
  have hone : l.atMostOneMark := by
    rw [Loop.atMostOneMark, h.marks]
    decide
  have hcount : l.calls.count .onMessageComplete = 1 := h.completed
  refine ⟨?_, l.parser, ?_⟩
  · rw [Complete, hdone]
    simp [hone, hcount, h.state]
  · rw [append_fresh hne, hdone, Outcome.finish, if_pos hone, flush_of_marks h.marks]
    have hcalls : l.calls.foldl (HttpRequest.call data) .fresh = r := h.request
    rw [Option.map_some, HttpRequest.receive, hcalls]

/-- Header lines are kept under their names, of which the last one counts, and change nothing else
that a handler sees. -/
theorem foldl_readLine (lines : List HeaderLine) (r : HttpRequest) :
    ∃ tempkey tempval, lines.foldl HttpRequest.readLine r = { r with
      tempkey, tempval, headers := assign r.headers (lines.map fun f => (f.name, f.value)) } := by
  induction lines generalizing r with
  | nil => exact ⟨_, _, rfl⟩
  | cons f lines ih =>
    obtain ⟨tempkey, tempval, heq⟩ := ih (r.readLine f)
    exact ⟨tempkey, tempval, heq⟩

namespace RequestText

variable {q : RequestText}

/-- The head of a request is read up to its empty line. -/
theorem Proper.lineStart (h : q.Proper) :
    ∃ l length, LineStart q.text q.method length
        (q.lines.foldl HttpRequest.readLine { HttpRequest.fresh with url := q.path }) l
        (crlf ++ q.body) ∧ l.p + 2 = q.head.length ∧
      (length = none ∧ q.body = [] ∨ length = some q.body.length) := by
  obtain ⟨path, hpath, hurl⟩ := h.path
  have hline : q.requestLine.length =
      (bytes (methodStrings q.method)).length + path.length + 13 := by
    have hversion : (bytes " HTTP/1.1\r\n").length = 11 := by decide
    simp only [requestLine, hpath, List.length_append, List.length_cons, hversion]
    omega
  have hhead : q.head.length =
      q.requestLine.length + (q.lines.flatMap HeaderLine.text).length + 2 := by
    simp only [RequestText.head, crlf, List.length_append, List.length_cons, List.length_nil]
    omega
  have hroom := h.head
  have htext : q.text = bytes (methodStrings q.method) ++ 32 :: (47 :: path ++
      (bytes " HTTP/1.1\r\n" ++ (q.lines.flatMap HeaderLine.text ++ (crlf ++ q.body)))) := by
    simp only [text, RequestText.head, requestLine, hpath, List.append_assoc, List.cons_append]
  obtain ⟨l, hl, hp⟩ := exists_lineStart htext h.method hurl (by omega)
  rw [← hpath] at hl
  have hannounces := h.announces
  unfold Announces at hannounces
  split at hannounces
  · next hnone =>
    -- no line announces a body
    have hlines : ∀ f ∈ q.lines, f.Proper ∧ f.isContentLength = false := fun f hf =>
      ⟨h.lines f hf, by simpa using List.filter_eq_nil_iff.mp hnone f hf⟩
    obtain ⟨l', hl', hp'⟩ := hl.lines hlines (by omega)
    exact ⟨l', none, hl', by omega, .inl ⟨rfl, hannounces⟩⟩
  · next f hone =>
    -- the lines before the one that does, this line, and the lines behind it
    obtain ⟨before, after, hsplit, hbefore, hkey, hafter⟩ := List.filter_eq_cons_iff.mp hone
    have hmem : ∀ g, g ∈ before ∨ g = f ∨ g ∈ after → g.Proper := fun g hg =>
      h.lines g (by rw [hsplit]; simpa using hg)
    rw [hsplit, List.flatMap_append, List.flatMap_cons, List.length_append,
      List.length_append] at hhead
    rw [hsplit, List.flatMap_append, List.flatMap_cons, List.append_assoc, List.append_assoc] at hl
    obtain ⟨l₁, h₁, hp₁⟩ := hl.lines (fun g hg =>
      ⟨hmem g (.inl hg), by simpa using hbefore g hg⟩) (by omega)
    obtain ⟨l₂, h₂, hp₂⟩ := h₁.announce (hmem f (.inr (.inl rfl))) hkey hannounces h.body (by omega)
    obtain ⟨l₃, h₃, hp₃⟩ := LineStart.lines h₂ (fun g hg =>
      ⟨hmem g (.inr (.inr hg)), by simpa using List.filter_eq_nil_iff.mp hafter g hg⟩) (by omega)
    refine ⟨l₃, _, ?_, by omega, .inr rfl⟩
    rw [hsplit, List.foldl_append, List.foldl_cons]
    exact h₃
  · exact absurd hannounces not_false

/-- What is sent begins with the name of a method. -/
theorem text_ne_nil : q.text ≠ [] := by
  refine List.append_ne_nil_of_left_ne_nil (List.append_ne_nil_of_left_ne_nil ?_ _) _
  exact List.append_ne_nil_of_right_ne_nil _ (List.cons_ne_nil _ _)

/-- A request that is sent is read to its end, and what a handler sees of it is what was sent. -/
theorem Proper.messageEnd (h : q.Proper) :
    ∃ l r, MessageEnd q.text r l ∧ r.finished = true ∧ ∀ parser, { r with parser }.message =
      q.message := by
  obtain ⟨l, length, hl, hp, hlength⟩ := h.lineStart
  have hroom := h.head
  obtain ⟨tempkey, tempval, hlines⟩ :=
    foldl_readLine q.lines { HttpRequest.fresh with url := q.path }
  rw [hlines] at hl
  obtain ⟨l₁, h₁⟩ := hl.exists_headEnd (by omega)
  by_cases hbody : q.body = []
  · have hzero : length.getD 0 = 0 := by
      rcases hlength with ⟨rfl, -⟩ | rfl
      · rfl
      · rw [hbody]
        rfl
    rw [hbody] at h₁
    obtain ⟨l₂, h₂⟩ := h₁.exists_messageEnd h.method hzero
    refine ⟨l₂, _, h₂, rfl, fun parser => ?_⟩
    rw [message, hbody]
    rfl
  · obtain rfl := hlength.resolve_left fun hnone => hbody hnone.2
    obtain ⟨l₂, h₂⟩ := h₁.exists_messageEnd_body h.method hbody h.body
    exact ⟨l₂, _, h₂, rfl, fun parser => rfl⟩

/-- In one buffer, it is complete, and it is stored as it is. -/
theorem append_text (h : q.Proper) :
    Complete q.text ∧ ∃ r, HttpRequest.fresh.append q.text = some r ∧ r.finished = true ∧
      r.message = q.message := by
  obtain ⟨l, r, hend, hfinished, hmessage⟩ := h.messageEnd
  obtain ⟨hcomplete, parser, happend⟩ := hend.append text_ne_nil
  exact ⟨hcomplete, _, happend, hfinished, hmessage parser⟩

end RequestText

end MosqCluster.Http
