import MosqCluster.Helper.UrlEncode
import MosqCluster.Http.Request

/-!
# Lookups in a request

`header`, `query`, `HasHeader` and `HasQuery` of `server/http_request.cpp`, which a route handler
calls. An iterator knows its map, so that iterators of two maps are never equal. The lookups among
the queries compare what they find with the end of the headers.

## Main definitions

* `HttpRequest.header`, `HttpRequest.query`, `HttpRequest.hasHeader` and `HttpRequest.hasQuery`;
* `HttpRequest.LooksUp`: the lookups of a key among the queries are safe and exact.

## Main results

* `HttpRequest.looksUp_iff`: they are where the key is in the map, and only there.
-/

namespace MosqCluster.Http

/-- The two maps of a request. -/
inductive Container where
  | headers
  | queries
  deriving DecidableEq

/-- A `const_iterator` of one of the maps; no key is the end. -/
structure Iterator where
  container : Container
  key : Option Bytes
  deriving DecidableEq

namespace HttpRequest

variable {r : HttpRequest} {key name : Bytes}

/-- The entries of a map. -/
def entries (r : HttpRequest) : Container → Bytes → Option Bytes
  | .headers => r.headers
  | .queries => r.queries

/-- `map::find`. -/
def find (r : HttpRequest) (c : Container) (key : Bytes) : Iterator :=
  ⟨c, if (r.entries c key).isSome then some key else none⟩

/-- `map::end`. -/
def endOf (c : Container) : Iterator := ⟨c, none⟩

/-- `iter->second`; `none` is the undefined behaviour of reading at the end. -/
def second (r : HttpRequest) (iter : Iterator) : Option Bytes :=
  iter.key.bind (r.entries iter.container)

/-- `HttpRequest::header`. -/
def header (r : HttpRequest) (name : Bytes) : Option Bytes :=
  let iter := r.find .headers name
  if iter ≠ endOf .headers then r.second iter else some []

/-- `HttpRequest::query`, which decodes the value up to its first zero byte. -/
def query (r : HttpRequest) (key : Bytes) : Option Bytes :=
  let iter := r.find .queries key
  if iter ≠ endOf .headers then (r.second iter).map fun v => urlDecode (cString v)
  else some []

/-- `HttpRequest::HasHeader`. -/
def hasHeader (r : HttpRequest) (name : Bytes) : Bool := r.find .headers name ≠ endOf .headers

/-- `HttpRequest::HasQuery`. -/
def hasQuery (r : HttpRequest) (key : Bytes) : Bool := r.find .queries key ≠ endOf .headers

/-- A request after callbacks, each with the buffer its span is taken from. -/
def called (calls : List (Bytes × Call)) : HttpRequest :=
  calls.foldl (fun r c => r.call c.1 c.2) fresh

/-- The lookups of a key among the queries are safe and exact. -/
structure LooksUp (r : HttpRequest) (key : Bytes) : Prop where
  /-- `HasQuery` says whether the key is in the map. -/
  hasQuery : r.hasQuery key = true ↔ ∃ value, r.queries key = some value
  /-- `query` does not read at the end. -/
  safe : r.query key ≠ none
  /-- `query` decodes the value that is stored. -/
  present : ∀ value, r.queries key = some value → r.query key = some (urlDecode value)
  /-- `query` gives the empty string for a key that is not there. -/
  absent : r.queries key = none → r.query key = some []

/-! ## What the lookups give -/

/-- The value at what is found. -/
theorem second_find (c : Container) : r.second (r.find c key) = r.entries c key := by
  rw [second, find]
  cases hentry : r.entries c key with
  | none => rfl
  | some value => exact hentry

/-- The end is what is found for an absent key of the same map. -/
theorem find_eq_endOf_iff (r : HttpRequest) (c : Container) (key : Bytes) :
    r.find c key = endOf c ↔ r.entries c key = none := by
  rw [find, endOf, Iterator.mk.injEq]
  cases r.entries c key <;> simp

/-- An iterator of the queries is not the end of the headers. -/
theorem find_queries_ne_endOf : r.find .queries key ≠ endOf .headers := by
  intro h
  -- the two iterators belong to different maps
  have hcontainer : Container.queries = Container.headers := congrArg Iterator.container h
  exact absurd hcontainer (by decide)

/-- A header that is absent reads as the empty string. -/
theorem header_eq : r.header name = some ((r.headers name).getD []) := by
  rw [header]
  by_cases habsent : r.headers name = none
  · rw [if_neg (not_not_intro ((find_eq_endOf_iff r .headers name).mpr habsent)), habsent]
    rfl
  · rw [if_pos (mt (find_eq_endOf_iff r .headers name).mp habsent), second_find]
    obtain ⟨value, hvalue⟩ := Option.ne_none_iff_exists'.mp habsent
    show r.headers name = _
    rw [hvalue]
    rfl

/-- `HasHeader` says whether the header is in the map. -/
theorem hasHeader_iff : r.hasHeader name = true ↔ ∃ value, r.headers name = some value := by
  rw [hasHeader, decide_eq_true_iff, ne_eq, find_eq_endOf_iff]
  exact Option.ne_none_iff_exists'

/-- `query` reads what is found, also where nothing is. -/
theorem query_eq : r.query key = (r.queries key).map fun v => urlDecode (cString v) := by
  rw [query, if_pos find_queries_ne_endOf, second_find]
  rfl

/-- `HasQuery` is always true. -/
theorem hasQuery_eq : r.hasQuery key = true := decide_eq_true find_queries_ne_endOf

/-! ## Runs -/

/-- What the parser reads from the buffers of a connection is stored by callbacks. -/
theorem exists_called_of_appendAll {bufs : List Bytes} (h : fresh.appendAll bufs = some r) :
    ∃ calls parser, r = { called calls with parser } := by
  suffices hall : ∀ (bufs : List Bytes) (calls : List (Bytes × Call)) (parser : HttpParser)
      (r : HttpRequest), { called calls with parser }.appendAll bufs = some r →
      ∃ calls parser, r = { called calls with parser } from hall bufs [] fresh.parser r h
  intro bufs
  induction bufs with
  | nil =>
    intro calls parser r h
    exact ⟨calls, parser, (Option.some.inj h).symm⟩
  | cons data rest ih =>
    intro calls parser r h
    obtain ⟨next, happend, hrest⟩ := Option.bind_eq_some_iff.mp h
    obtain ⟨result, -, rfl⟩ := Option.map_eq_some_iff.mp happend
    -- the calls of a buffer come behind those of the buffers before
    apply ih (calls ++ result.calls.map fun c => (data, c)) result.parser
    rw [← hrest, receive, parser_foldl_call, called, List.foldl_append, List.foldl_map]
    rfl

/-- After any callbacks the lookups of a key are right exactly where the key is in the map, with a
value that has no zero byte. -/
theorem looksUp_iff (calls : List (Bytes × Call)) (key : Bytes) :
    (called calls).LooksUp key ↔ ∃ value, (called calls).queries key = some value ∧ 0 ∉ value := by
  constructor
  · intro h
    -- `HasQuery` is true, so the key has to be there
    obtain ⟨value, hvalue⟩ := h.hasQuery.mp hasQuery_eq
    refine ⟨value, hvalue, ?_⟩
    have hread := h.present value hvalue
    rw [query_eq, hvalue, Option.map_some] at hread
    exact urlDecode_cString_eq_iff.mp (Option.some.inj hread)
  · rintro ⟨value, hvalue, hzero⟩
    have hread : (called calls).query key = some (urlDecode value) := by
      rw [query_eq, hvalue, Option.map_some, urlDecode_cString_eq_iff.mpr hzero]
    constructor
    · exact ⟨fun _ => ⟨value, hvalue⟩, fun _ => hasQuery_eq⟩
    · rw [hread]
      exact Option.some_ne_none _
    · intro value' hvalue'
      rw [hread, Option.some.inj (hvalue.symm.trans hvalue')]
    · intro habsent
      exact absurd (hvalue.symm.trans habsent) (Option.some_ne_none _)

/-- A client that leaves the parameter `corp` out. -/
theorem not_looksUp_corp :
    ¬ ∀ (calls : List (Bytes × Call)) (key : Bytes), (called calls).LooksUp key := by
  intro h
  have hcorp := h [] (bytes "corp")
  exact absurd hcorp.safe (not_not_intro (by rw [query_eq]; rfl))

end HttpRequest

end MosqCluster.Http
