import MosqCluster.Http.Chunks
import MosqCluster.Http.Parser.HeaderRun

/-!
# Bytes behind a request

The parser does not stop at the end of a message. Where the message leaves the connection open, what
follows it in the buffer is read as the next one, into the same `HttpRequest`. Only a message that
ends the connection or hands it over to another protocol is safe from the bytes behind it.

## Main definitions

* `DispatchedAlone`: no bytes behind the request change the message;
* `EndsConnection`: the request ends the connection, and its URL has been passed on;
* `LeavesRoom`: the header bytes that the request has left over are enough for another request line.

## Main results

* `dispatchedAlone_iff`: a request that ends the connection is dispatched as it is, and a request
  that does not, but leaves room for another one, is not;
* `not_dispatchedAlone_of_pipelined`: a pipelined request overwrites the first one.
-/

namespace MosqCluster.Http

/-- Whatever follows the request in its buffer, the message is the same. -/
def DispatchedAlone (data : Bytes) : Prop :=
  ∀ more, (HttpRequest.fresh.append (data ++ more)).map HttpRequest.message =
    (HttpRequest.fresh.append data).map HttpRequest.message

/-- After the request, the parser has left the connection to another protocol, or it waits for the
end of the connection, and no mark of a URL is left over. -/
def EndsConnection (data : Bytes) : Bool :=
  match mainLoop (.enter (httpParserInit .request)) 0 data with
  | .done l => l.parser.state = .dead && (l.marks .url).isNone
  | .returned _ _ => true
  | .abort => false

/-- After the request, five more bytes of a header may be read. -/
def LeavesRoom (data : Bytes) : Bool :=
  match mainLoop (.enter (httpParserInit .request)) 0 data with
  | .done l => l.parser.nread.toNat + 5 ≤ httpMaxHeaderSize
  | _ => true

variable {l l' : Loop} {parser : HttpParser} {data more rest : Bytes} {ch : UInt8}
  {tail : List UInt8}

/-! ## The end of a message -/

/-- Every mark that is set belongs to the state, except that of the URL and of a query name. -/
def ClosesMarks (l : Loop) : Prop :=
  ∀ kind, kind ≠ .url → kind ≠ .queryField → (l.marks kind).isSome →
    openMark l.parser.state = some kind

/-- Every state of the loop closes its marks. -/
theorem closesMarks_of_heads (h : Heads (.enter parser) data l rest) : ClosesMarks l := by
  refine h.invariant (P := fun l _ => ClosesMarks l) (fun l ch tail extra hs hexit => ?_) ?_
  · intro kind hurl hquery hset
    refine iteration_keepsMarks.closes extra hexit kind (fun _ => ⟨hurl, hquery⟩) ?_
    refine markedAfter_mono (fun hmark => ?_) _ ((isSome_marks_foldl kind _ l).symm.trans hset)
    simpa using hs kind hurl hquery hmark
  · intro kind _ _ hset
    simp only [Loop.enter] at hset
    split_ifs at hset with hresume
    · exact openMark_of_resumeMark hresume
    · cases hset

/-- Between two messages only the marks of the URL and of a query name may be set. -/
theorem ClosesMarks.eq_none (h : ClosesMarks l) (hstate : openMark l.parser.state = none)
    {kind : SpanKind} (hurl : kind ≠ .url) (hquery : kind ≠ .queryField) : l.marks kind = none := by
  by_contra hne
  have hopen := h kind hurl hquery (Option.isSome_iff_ne_none.mpr hne)
  rw [hstate] at hopen
  cases hopen

/-- The left-over calls where only these two marks may be set. -/
theorem calls_flush (h : ∀ kind, kind ≠ .url → kind ≠ .queryField → l.marks kind = none) :
    l.flush.calls = l.calls ++
      (((l.marks .url).map fun a => .onData .url a (l.p - a)).toList ++
        ((l.marks .queryField).map fun a => .onData .queryField a (l.p - a)).toList) := by
  have hother : ∀ (l : Loop) kind stop, l.marks kind = none → l.callbackData kind stop = l :=
    fun l kind stop h => by simp [Loop.callbackData, h]
  simp only [Loop.flush, leftoverOrder, List.foldl_cons, List.foldl_nil]
  rw [hother l .headerField _ (h _ (by decide) (by decide)),
    hother l .headerValue _ (h _ (by decide) (by decide))]
  cases hurl : l.marks .url <;> cases hquery : l.marks .queryField <;>
    simp [Loop.callbackData, hurl, hquery, h, SpanKind.installed]

/-- A mark of a query name that is left over does not change the message. -/
theorem message_flush (h : ∀ kind, kind ≠ .queryField → l.marks kind = none) (r : HttpRequest) :
    (l.flush.calls.foldl (HttpRequest.call data) r).message =
      (l.calls.foldl (HttpRequest.call data) r).message := by
  rw [calls_flush fun kind _ hquery => h kind hquery, h .url (by decide)]
  cases l.marks .queryField with
  | none => simp
  | some a =>
    simp [HttpRequest.call, HttpRequest.onData]
    rfl

/-! ## A connection that is at its end -/

/-- In the state `s_dead`, line ends are passed over and anything else is an error. -/
theorem iteration_dead (ch : UInt8) (tail : List UInt8) (hs : parser.state = .dead) :
    (iteration parser ch tail).ops = [] ∧
      ((iteration parser ch tail).exit = .next 0 ∧ (iteration parser ch tail).parser.state = .dead ∨
        (iteration parser ch tail).exit = .error 0) := by
  have hdispatch : dispatch (parser.addNread 1) ch tail = onDead (parser.addNread 1) ch := by
    simp [dispatch, HttpParser.addNread, hs]
  simp only [iteration, hs, State.parsingHeader, if_true, hdispatch, onDead]
  split_ifs
  · exact ⟨rfl, .inr rfl⟩
  · exact ⟨rfl, .inl ⟨rfl, hs⟩⟩
  · exact ⟨rfl, .inr rfl⟩

/-- So the loop makes no more calls and sets no more marks. -/
theorem mainLoop_dead (hs : l.parser.state = .dead) (more : Bytes) :
    (∃ l', mainLoop l 0 more = .done l' ∧ l'.marks = l.marks ∧ l'.calls = l.calls) ∨
      ∃ l' n, mainLoop l 0 more = .returned l' n ∧ l'.calls = l.calls := by
  induction more generalizing l with
  | nil => exact .inl ⟨l, rfl, rfl, rfl⟩
  | cons ch tail ih =>
    obtain ⟨hops, ⟨hexit, hstate⟩ | hexit⟩ :=
      iteration_dead ch tail hs
    · have hadvance : (l.advance ch tail 0).marks = l.marks ∧
          (l.advance ch tail 0).calls = l.calls := by
        simp [Loop.advance, Loop.run, hops]
      -- A line end is passed over, and the induction takes the rest.
      rw [mainLoop_next hexit, List.drop_zero]
      obtain ⟨l', hdone, hmarks, hcalls⟩ | ⟨l', n, hreturned, hcalls⟩ :=
        ih (l := l.advance ch tail 0) hstate
      · exact .inl ⟨l', hdone, hmarks.trans hadvance.1, hcalls.trans hadvance.2⟩
      · exact .inr ⟨l', n, hreturned, hcalls.trans hadvance.2⟩
    · -- Anything else is an error.
      refine .inr ⟨l.run (iteration l.parser ch tail), l.p + 0, ?_, ?_⟩
      · rw [mainLoop, hexit]
      · simp [Loop.run, hops]

/-- What a new request makes of a buffer. -/
theorem append_fresh (hdata : data ≠ []) :
    HttpRequest.fresh.append data =
      ((mainLoop (.enter (httpParserInit .request)) 0 data).finish data.length).map
        (HttpRequest.fresh.receive data) := by
  rw [HttpRequest.append, httpParserExecute_eq rfl hdata]
  rfl

/-- A complete request is not empty. -/
theorem ne_nil_of_complete (h : Complete data) : data ≠ [] := by
  rintro rfl
  cases h

/-- A request that ends the connection is dispatched as it is. -/
theorem dispatchedAlone_of_endsConnection (h : Complete data) (hends : EndsConnection data) :
    DispatchedAlone data := by
  intro more
  have hdata := ne_nil_of_complete h
  rw [append_fresh hdata, append_fresh (by simp [hdata])]
  unfold Complete at h
  unfold EndsConnection at hends
  cases hloop : mainLoop (.enter (httpParserInit .request)) 0 data with
  | abort => simp [hloop] at h
  | returned l n =>
    -- The loop is left at the end of the request, whatever follows.
    simp only [hloop, Bool.and_eq_true, decide_eq_true_eq] at h
    obtain ⟨l₀, ch, tail, hheads, rfl, -⟩ := exists_heads_of_returned hloop
    have hin := (inBuffer_of_heads hheads).run.2
    rw [mainLoop_append_of_returned hloop h.1.1, Outcome.finish, Outcome.finish, Option.map_some,
      Option.map_some, Option.map_some, Option.map_some]
    simp only [HttpRequest.receive, HttpRequest.message]
    rw [HttpRequest.foldl_call_append _ hin]
  | done l =>
    simp only [hloop, Bool.and_eq_true, decide_eq_true_eq] at h hends
    -- The parser is at the end of the connection, and only the mark of a query name may be set.
    obtain ⟨hdead, hurl⟩ := hends
    have hheads := heads_of_done hloop
    have hin := (inBuffer_of_heads hheads).calls
    have hnone : ∀ kind, kind ≠ .url → kind ≠ .queryField → l.marks kind = none :=
      fun kind => (closesMarks_of_heads hheads).eq_none (by rw [hdead]; rfl)
    have hmarks : ∀ kind, kind ≠ .queryField → l.marks kind = none := by
      intro kind hquery
      rcases eq_or_ne kind .url with rfl | hne
      · exact Option.isNone_iff_eq_none.mp hurl
      · exact hnone kind hne hquery
    have hclosed : ∀ kind, kind.ofTarget = false → l.marks kind = none := fun kind htarget =>
      hmarks kind fun heq => by simp [heq, SpanKind.ofTarget] at htarget
    rw [mainLoop_append holdsMarks_enter hloop hclosed, Outcome.finish, if_pos h.1.1,
      Option.map_some, Option.map_some]
    -- What follows makes no more calls.
    obtain ⟨l', hdone, hmarks', hcalls⟩ | ⟨l', n, hreturned, hcalls⟩ := mainLoop_dead hdead more
    · have hone : l'.atMostOneMark := by
        rw [Loop.atMostOneMark, hmarks']
        exact h.1.1
      rw [hdone, Outcome.finish, if_pos hone, Option.map_some, Option.map_some]
      refine congrArg some ?_
      calc (l'.flush.calls.foldl (HttpRequest.call (data ++ more)) .fresh).message
          = (l'.calls.foldl (HttpRequest.call (data ++ more)) .fresh).message :=
            message_flush (fun kind hk => hmarks' ▸ hmarks kind hk) _
        _ = (l.calls.foldl (HttpRequest.call data) .fresh).message := by
            rw [hcalls, HttpRequest.foldl_call_append _ hin]
        _ = (l.flush.calls.foldl (HttpRequest.call data) .fresh).message :=
            (message_flush hmarks _).symm
    · rw [hreturned, Outcome.finish, Option.map_some, Option.map_some]
      refine congrArg some ?_
      calc (l'.calls.foldl (HttpRequest.call (data ++ more)) .fresh).message
          = (l.calls.foldl (HttpRequest.call data) .fresh).message := by
            rw [hcalls, HttpRequest.foldl_call_append _ hin]
        _ = (l.flush.calls.foldl (HttpRequest.call data) .fresh).message :=
            (message_flush hmarks _).symm

/-! ## A connection that stays open -/

/-- The first letter of `GET`. -/
theorem mainLoop_get (tail : List UInt8) (hs : l.parser.state = .startReq)
    (hroom : l.parser.nread.toNat + 1 ≤ httpMaxHeaderSize) :
    ∃ l', mainLoop l 0 (71 :: tail) = mainLoop l' 0 tail ∧ l'.p = l.p + 1 ∧ l'.marks = l.marks ∧
      l'.calls = l.calls ++ [.onMessageBegin] ∧ l'.parser.state = .reqMethod ∧
      l'.parser.method = .GET ∧ l'.parser.index = 1 ∧
      l'.parser.nread.toNat = l.parser.nread.toNat + 1 := by
  have hheader : l.parser.state.parsingHeader := by
    rw [hs]
    rfl
  have hnread := (iteration_of_room 71 tail hheader hroom).2
  have hfirst : firstMethod 71 = some .GET := by decide
  have hdispatch : dispatch (l.parser.addNread 1) 71 tail =
      .next { l.parser.addNread 1 with
        flags := {}, contentLength := ullongMax, method := .GET, index := 1, state := .reqMethod }
        [.messageBegin] := by
    simp +decide [dispatch, hs, HttpParser.addNread, onStartReq, hfirst]
  exact ⟨_, mainLoop_of_dispatch hheader hroom hdispatch, rfl, rfl, rfl, rfl, rfl, rfl, hnread⟩

/-- The other letters, and the space behind them. -/
theorem mainLoop_method (tail : List UInt8) {i : BitVec 7} (hs : l.parser.state = .reqMethod)
    (hmethod : l.parser.method = .GET) (hindex : l.parser.index = i)
    (hch : i = 1 ∧ ch = 69 ∨ i = 2 ∧ ch = 84 ∨ i = 3 ∧ ch = 32)
    (hroom : l.parser.nread.toNat + 1 ≤ httpMaxHeaderSize) :
    ∃ l', mainLoop l 0 (ch :: tail) = mainLoop l' 0 tail ∧ l'.p = l.p + 1 ∧ l'.marks = l.marks ∧
      l'.calls = l.calls ∧
      l'.parser.state = (if i = 3 then .reqSpacesBeforeUrl else .reqMethod) ∧
      l'.parser.method = .GET ∧ l'.parser.index = i + 1 ∧
      l'.parser.nread.toNat = l.parser.nread.toNat + 1 := by
  have hheader : l.parser.state.parsingHeader := by
    rw [hs]
    rfl
  have hnread := (iteration_of_room ch tail hheader hroom).2
  have hdispatch : dispatch (l.parser.addNread 1) ch tail =
      .next { l.parser.addNread 1 with
        state := if i = 3 then .reqSpacesBeforeUrl else .reqMethod, index := i + 1 } [] := by
    -- The letter is the one that `index` asks for.
    rcases hch with ⟨rfl, rfl⟩ | ⟨rfl, rfl⟩ | ⟨rfl, rfl⟩ <;>
      simp +decide [dispatch, hs, HttpParser.addNread, onReqMethod, hmethod, hindex]
  exact ⟨_, mainLoop_of_dispatch hheader hroom hdispatch, rfl, rfl, rfl, rfl, hmethod, rfl, hnread⟩

/-- The first byte of the URL. -/
theorem mainLoop_target (tail : List UInt8) (hs : l.parser.state = .reqSpacesBeforeUrl)
    (hmethod : l.parser.method = .GET) (hurl : l.marks .url = none)
    (hch : ch = 47 ∨ ch = 42) (hroom : l.parser.nread.toNat + 1 ≤ httpMaxHeaderSize) :
    ∃ l', mainLoop l 0 (ch :: tail) = mainLoop l' 0 tail ∧ l'.p = l.p + 1 ∧
      l'.marks = Function.update l.marks .url (some l.p) ∧ l'.calls = l.calls := by
  have hheader : l.parser.state.parsingHeader := by
    rw [hs]
    rfl
  have hdispatch : dispatch (l.parser.addNread 1) ch tail =
      .next { l.parser.addNread 1 with state := .reqPath } [.mark .url] := by
    rcases hch with rfl | rfl <;>
      simp +decide [dispatch, hs, HttpParser.addNread, onReqSpacesBeforeUrl, hmethod, stepUrl,
        parseUrlChar]
  refine ⟨_, mainLoop_of_dispatch hheader hroom hdispatch, rfl, ?_, ?_⟩ <;>
    simp [Loop.runOp, hurl]

/-- The start of another request: a method and the first byte of a URL. -/
def nextRequest (target : UInt8) : Bytes := [71, 69, 84, 32, target]

/-- Where the parser waits for a message, it reads the start of another request, and a URL is
open. -/
theorem mainLoop_nextRequest (hs : l.parser.state = .startReq)
    (hroom : l.parser.nread.toNat + 5 ≤ httpMaxHeaderSize) (hurl : l.marks .url = none)
    {target : UInt8} (htarget : target = 47 ∨ target = 42) :
    ∃ l', mainLoop l 0 (nextRequest target) = .done l' ∧ l'.p = l.p + 5 ∧
      l'.marks = Function.update l.marks .url (some (l.p + 4)) ∧
      l'.calls = l.calls ++ [.onMessageBegin] := by
  -- One lemma for each byte; the room for the header is counted down.
  obtain ⟨l₁, h₁, hp₁, hm₁, hc₁, hs₁, hg₁, hi₁, hn₁⟩ :=
    mainLoop_get [69, 84, 32, target] hs (by omega)
  obtain ⟨l₂, h₂, hp₂, hm₂, hc₂, hs₂, hg₂, hi₂, hn₂⟩ :=
    mainLoop_method [84, 32, target] hs₁ hg₁ hi₁ (.inl ⟨rfl, rfl⟩) (by omega)
  obtain ⟨l₃, h₃, hp₃, hm₃, hc₃, hs₃, hg₃, hi₃, hn₃⟩ :=
    mainLoop_method [32, target] hs₂ hg₂ hi₂ (.inr (.inl ⟨rfl, rfl⟩)) (by omega)
  obtain ⟨l₄, h₄, hp₄, hm₄, hc₄, hs₄, hg₄, -, hn₄⟩ :=
    mainLoop_method [target] hs₃ hg₃ hi₃ (.inr (.inr ⟨rfl, rfl⟩)) (by omega)
  have hmarks : l₄.marks = l.marks := by rw [hm₄, hm₃, hm₂, hm₁]
  obtain ⟨l₅, h₅, hp₅, hm₅, hc₅⟩ :=
    mainLoop_target [] hs₄ hg₄ (by rw [hmarks, hurl]) htarget (by omega)
  refine ⟨l₅, ?_, by omega, ?_, by rw [hc₅, hc₄, hc₃, hc₂, hc₁]⟩
  · rw [nextRequest, h₁, h₂, h₃, h₄, h₅, mainLoop]
  · rw [hm₅, hmarks, show l₄.p = l.p + 4 by omega]

/-- Between two messages, a line end is passed over. -/
theorem mainLoop_lineEnd (hs : l.parser.state = .startReq ∨ l.parser.state = .dead)
    (hroom : l.parser.nread.toNat + 1 ≤ httpMaxHeaderSize) :
    ∃ l', mainLoop l 0 [LF] = .done l' ∧ l'.p = l.p + 1 ∧ l'.marks = l.marks ∧
      l'.calls = l.calls := by
  have hheader : l.parser.state.parsingHeader := by
    rcases hs with hs | hs <;> rw [hs] <;> rfl
  have hdispatch : dispatch (l.parser.addNread 1) LF [] = .next (l.parser.addNread 1) [] := by
    rcases hs with hs | hs <;>
      simp [dispatch, hs, HttpParser.addNread, onStartReq, onDead]
  exact ⟨_, mainLoop_of_dispatch hheader hroom hdispatch, rfl, rfl, rfl⟩

/-- A URL that is left over is passed on up to the end of the buffer. -/
theorem url_flush {a : Nat} (hurl : l.marks .url = some a)
    (h : ∀ kind, kind ≠ .url → kind ≠ .queryField → l.marks kind = none) (r : HttpRequest) :
    (l.flush.calls.foldl (HttpRequest.call data) r).message.url =
      (data.drop a).take (l.p - a) := by
  -- The URL is passed on before the query name, which does not touch it.
  rw [calls_flush h, hurl]
  cases l.marks .queryField <;>
    simp [HttpRequest.call, HttpRequest.onData, HttpRequest.onUrl, HttpRequest.onQueryField,
      HttpRequest.message]

/-- The URL of a message that has been read to the end of the buffer with the mark of the URL
set. -/
theorem url_of_finish (size : Nat) {o : Outcome} (ho : o = .done l) {a : Nat} {message : Message}
    (hurl : l.marks .url = some a)
    (h : ∀ kind, kind ≠ .url → kind ≠ .queryField → l.marks kind = none)
    (hfinish : ((o.finish size).map (HttpRequest.fresh.receive data)).map HttpRequest.message =
      some message) : message.url = (data.drop a).take (l.p - a) := by
  subst ho
  rw [Outcome.finish] at hfinish
  split_ifs at hfinish
  · rw [Option.map_some, Option.map_some, Option.some.injEq] at hfinish
    rw [← hfinish]
    exact url_flush hurl h _
  · cases hfinish

/-- A request that leaves the connection open, or a mark of its URL, may be changed by what
follows. -/
theorem not_dispatchedAlone (h : Complete data) (hroom : LeavesRoom data)
    (hopen : ¬ EndsConnection data) : ¬ DispatchedAlone data := by
  intro halone
  have hdata := ne_nil_of_complete h
  unfold Complete at h
  unfold LeavesRoom at hroom
  unfold EndsConnection at hopen
  cases hloop : mainLoop (.enter (httpParserInit .request)) 0 data with
  | abort => simp [hloop] at h
  | returned l n => simp [hloop] at hopen
  | done l =>
    simp only [hloop, Bool.and_eq_true, Bool.or_eq_true, decide_eq_true_eq] at h hroom hopen
    obtain ⟨⟨hone, -⟩, hstate⟩ := h
    have hheads := heads_of_done hloop
    have hsize : l.p = data.length := by simpa using (inBuffer_of_heads hheads).size_eq
    have hnone : ∀ kind, kind ≠ .url → kind ≠ .queryField → l.marks kind = none := by
      refine fun kind => (closesMarks_of_heads hheads).eq_none ?_
      rcases hstate with h | h <;> rw [h] <;> rfl
    have hclosed : ∀ kind, kind.ofTarget = false → l.marks kind = none := fun kind htarget =>
      hnone kind (by rintro rfl; cases htarget) (by rintro rfl; cases htarget)
    -- What the buffer leaves, without and with bytes behind it.
    have hfirst : ∃ message, (HttpRequest.fresh.append data).map HttpRequest.message =
        some message := by
      rw [append_fresh hdata, hloop, Outcome.finish, if_pos hone]
      exact ⟨_, rfl⟩
    obtain ⟨message, hmessage⟩ := hfirst
    have hmore : ∀ more, (((mainLoop l 0 more).finish (data ++ more).length).map
        (HttpRequest.fresh.receive (data ++ more))).map HttpRequest.message = some message := by
      intro more
      rw [← hmessage, ← halone more, append_fresh (by simp [hdata]),
        mainLoop_append holdsMarks_enter hloop hclosed]
    cases hurl : l.marks .url with
    | some a =>
      -- The URL goes on to the end of the buffer, so a line end makes it longer.
      have ha : a ≤ l.p := (inBuffer_of_heads hheads).marks .url a hurl
      have hshort : message.url = (data.drop a).take (l.p - a) := by
        apply url_of_finish data.length hloop hurl hnone
        rw [← append_fresh hdata, hmessage]
      obtain ⟨l', hdone, hp, hmarks, -⟩ := mainLoop_lineEnd hstate (by omega)
      have hlong : message.url = ((data ++ [LF]).drop a).take (l'.p - a) :=
        url_of_finish _ hdone (hmarks ▸ hurl) (hmarks ▸ hnone) (hmore [LF])
      have hlength := congrArg List.length (hshort.symm.trans hlong)
      simp only [List.length_take, List.length_drop, List.length_append,
        List.length_singleton] at hlength
      omega
    | none =>
      have hs : l.parser.state = .startReq :=
        hstate.resolve_right fun hdead => hopen ⟨hdead, by rw [hurl]; rfl⟩
      -- Two requests with different URLs may follow.
      have hnext : ∀ target : UInt8, target = 47 ∨ target = 42 → message.url = [target] := by
        intro target htarget
        obtain ⟨l', hdone, hp, hmarks, -⟩ := mainLoop_nextRequest hs hroom hurl htarget
        have hnone' : ∀ kind, kind ≠ .url → kind ≠ .queryField → l'.marks kind = none := by
          intro kind hne hquery
          rw [hmarks, Function.update_of_ne hne]
          exact hnone kind hne hquery
        rw [url_of_finish _ hdone (a := l.p + 4) (by rw [hmarks, Function.update_self]) hnone'
          (hmore (nextRequest target)), hp, hsize]
        have hdrop : (data ++ nextRequest target).drop (data.length + 4) = [target] := by
          rw [List.drop_length_add_append]
          rfl
        rw [hdrop]
        simp
      have hslash := hnext 47 (.inl rfl)
      rw [hnext 42 (.inr rfl)] at hslash
      exact absurd hslash (by decide)

/-- A request is dispatched as it is where it ends the connection and, if it leaves room for another
one, only there. -/
theorem dispatchedAlone_iff (h : Complete data) :
    (EndsConnection data → DispatchedAlone data) ∧
      (LeavesRoom data → DispatchedAlone data → EndsConnection data) :=
  ⟨dispatchedAlone_of_endsConnection h, fun hroom halone =>
    by_contra fun hopen => not_dispatchedAlone h hroom hopen halone⟩

/-- A request of the older protocol ends its connection. -/
def closingRequest : Bytes := bytes "GET /a HTTP/1.0\r\n\r\n"

/-- It is dispatched as it is. -/
theorem dispatchedAlone_iff_closingRequest : DispatchedAlone closingRequest :=
  (dispatchedAlone_iff (by decide +kernel)).1 (by decide +kernel)

/-- A request that leaves its connection open. -/
def openRequest : Bytes := bytes "GET /a HTTP/1.1\r\n\r\n"

/-- Not every request is dispatched as it is: a second one behind it overwrites the URL. -/
theorem not_dispatchedAlone_of_pipelined :
    ¬ ∀ data, Complete data → DispatchedAlone data := by
  intro h
  have hsame := h openRequest (by decide +kernel) (bytes "GET /b HTTP/1.1\r\n\r\n")
  have hurl := congrArg (Option.map Message.url) hsame
  rw [Option.map_map, Option.map_map] at hurl
  exact absurd hurl (by decide +kernel)

end MosqCluster.Http
