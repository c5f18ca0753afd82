import MosqCluster.Http.Request

/-!
# Requests in pieces

A request may come in any number of buffers. Where every buffer but the last ends between two spans,
the request is what it would be in one buffer. Where a buffer ends within a span, the callbacks get
the span in pieces, and keep the last one.

## Main definitions

* `ChunkIndependent`: the buffers leave what the whole leaves;
* `cutsBetweenSpans`: every buffer but the last ends between two spans.

## Main results

* `chunkIndependent_of_cutsBetweenSpans`: then the request does not depend on the buffers;
* `not_chunkIndependent_of_cut_in_url`: in general it does.
-/

namespace MosqCluster.Http

/-- What the buffers of a new connection leave is what the whole leaves in one buffer. -/
def ChunkIndependent (cutting : List Bytes) : Prop :=
  (HttpRequest.fresh.appendAll cutting).map (fun r => (r.message, r.finished)) =
    (HttpRequest.fresh.append cutting.flatten).map fun r => (r.message, r.finished)

/-- No mark is set. -/
def Loop.noOpenSpan (l : Loop) : Bool := leftoverOrder.all fun kind => (l.marks kind).isNone

/-- The parser uses up every buffer but the last, and no mark is set at its end. -/
def cutsBetweenSpans (parser : HttpParser) : List Bytes → Bool
  | [] | [_] => true
  | data :: next :: rest =>
    match mainLoop (.enter parser) 0 data with
    | .done l => l.noOpenSpan && cutsBetweenSpans l.parser (next :: rest)
    | _ => false

variable {r : HttpRequest} {l : Loop} {data more : Bytes} {cutting : List Bytes}

/-- Then the marks are those of a loop that has not begun. -/
theorem marks_of_noOpenSpan (h : l.noOpenSpan) : l.marks = noMarks := by
  funext kind
  have hmem : kind ∈ leftoverOrder := by cases kind <;> decide
  exact Option.isNone_iff_eq_none.mp (List.all_eq_true.mp h kind hmem)

/-- Where no mark is set, nothing is left over. -/
theorem flush_of_marks (h : l.marks = noMarks) : l.flush = l := by
  have hkind : ∀ kind stop, l.callbackData kind stop = l := fun kind stop => by
    simp [Loop.callbackData, h, noMarks]
  simp only [Loop.flush, leftoverOrder, List.foldl_cons, List.foldl_nil, hkind]

/-- A run that uses up its buffer leaves the error alone, and keeps to the buffer. -/
theorem Heads.done_spec {parser : HttpParser} (h : Heads (.enter parser) data l []) :
    l.parser.httpErrno = parser.httpErrno ∧ HoldsMarks l ∧ InBuffer data.length l [] := by
  have herrno := h.invariant (P := fun l _ => l.parser.httpErrno = parser.httpErrno)
    (fun l ch tail extra hs hexit => (iteration_keepsMarks.errno extra hexit).trans hs) rfl
  have hholds := h.invariant (P := fun l _ => HoldsMarks l)
    (fun l ch tail extra hs hexit => hs.advance hexit) holdsMarks_enter
  exact ⟨herrno, hholds, inBuffer_of_heads h⟩

/-- Two buffers, of which the first ends between two spans, are as good as one. -/
theorem HttpRequest.append_append (herrno : r.parser.httpErrno = .OK) (hdata : data ≠ [])
    (hmore : more ≠ []) (hdone : mainLoop (.enter r.parser) 0 data = .done l)
    (hopen : l.noOpenSpan) :
    ∃ r', r.append data = some r' ∧ r'.parser = l.parser ∧ r'.parser.httpErrno = .OK ∧
      r'.append more = r.append (data ++ more) := by
  have hmarks := marks_of_noOpenSpan hopen
  obtain ⟨herrno', hholds, hin⟩ := (heads_of_done hdone).done_spec
  have hsize : l.p = data.length := by simpa using hin.size_eq
  have hlast : l.parser.httpErrno = .OK := herrno'.trans herrno
  -- The first buffer makes the calls of the loop, and nothing is left over.
  have hfirst : httpParserExecute r.parser data = some ⟨l.parser, l.calls, data.length⟩ := by
    have hone : l.atMostOneMark := by
      rw [Loop.atMostOneMark, hmarks]
      decide
    rw [httpParserExecute_eq herrno hdata, hdone, Outcome.finish, if_pos hone,
      flush_of_marks hmarks]
  have hwhole : httpParserExecute r.parser (data ++ more) =
      (httpParserExecute l.parser more).map (.shift l.p l.calls) := by
    have hclosed : ∀ kind, kind.ofTarget = false → l.marks kind = none := fun kind _ => by
      rw [hmarks]
      rfl
    rw [httpParserExecute_eq herrno (by simp [hdata]), httpParserExecute_eq hlast hmore,
      mainLoop_append holdsMarks_enter hdone hclosed, List.length_append, Nat.add_comm, ← hsize,
      finish_mainLoop_enter hmarks hholds hmore]
  refine ⟨_, by rw [append, hfirst, Option.map_some], rfl, hlast, ?_⟩
  rw [append, append, hwhole, Option.map_map]
  refine congrArg₂ Option.map ?_ rfl
  funext result
  rw [Function.comp_apply, hsize, receive_shift hin.calls]

/-- Buffers that all but the last end between two spans are as good as one. -/
theorem HttpRequest.appendAll_eq_append (herrno : r.parser.httpErrno = .OK)
    (hne : ∀ data ∈ cutting, data ≠ []) (hnil : cutting ≠ [])
    (hcut : cutsBetweenSpans r.parser cutting) :
    r.appendAll cutting = r.append cutting.flatten := by
  induction cutting generalizing r with
  | nil => exact absurd rfl hnil
  | cons data rest ih =>
    cases rest with
    | nil =>
      -- The last buffer may end anywhere.
      rw [appendAll, List.flatten_cons, List.flatten_nil, List.append_nil]
      cases r.append data <;> rfl
    | cons next rest =>
      rw [cutsBetweenSpans] at hcut
      split at hcut
      case h_1 l hdone =>
        -- The first two buffers are as good as one, and the induction takes the others.
        obtain ⟨hopen, hcut⟩ := Bool.and_eq_true_iff.mp hcut
        have hmore : (next :: rest).flatten ≠ [] := by
          have := hne next (by simp)
          simp [this]
        obtain ⟨r', hfirst, hparser, herrno', hsecond⟩ :=
          append_append herrno (hne data (by simp)) hmore hdone hopen
        rw [appendAll, hfirst, Option.bind_some, List.flatten_cons, ← hsecond]
        exact ih herrno' (fun b hb => hne b (by simp [hb])) (by simp) (hparser ▸ hcut)
      case h_2 => cases hcut

/-- The request does not depend on the buffers where every buffer but the last ends between two
spans. -/
theorem chunkIndependent_of_cutsBetweenSpans (hne : ∀ data ∈ cutting, data ≠ [])
    (hcut : cutsBetweenSpans (httpParserInit .request) cutting) : ChunkIndependent cutting := by
  by_cases hnil : cutting = []
  · subst hnil
    rfl
  · rw [ChunkIndependent, HttpRequest.appendAll_eq_append rfl hne hnil hcut]

/-- A request in two buffers, cut behind the request line. -/
theorem chunkIndependent_two_lines :
    ChunkIndependent [bytes "GET /path HTTP/1.1\r\n", bytes "Host: h\r\n\r\n"] :=
  chunkIndependent_of_cutsBetweenSpans (by decide) (by decide +kernel)

/-- A request that is cut in its URL. -/
def cutInUrl : List Bytes := [bytes "GET /pa", bytes "th HTTP/1.1\r\n\r\n"]

/-- Not every request is independent of its buffers: of a URL in two pieces, the second is left. -/
theorem not_chunkIndependent_of_cut_in_url :
    ¬ ∀ cutting, (∀ data ∈ cutting, data ≠ []) → Complete cutting.flatten →
      ChunkIndependent cutting := by
  intro h
  have hsame := h cutInUrl (by decide) (by decide +kernel)
  have hurl := congrArg (Option.map fun p : Message × Bool => p.1.url) hsame
  rw [Option.map_map, Option.map_map] at hurl
  exact absurd hurl (by decide +kernel)

end MosqCluster.Http
