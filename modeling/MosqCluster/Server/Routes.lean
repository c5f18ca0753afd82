import MosqCluster.Foundation.ComparisonMap
import MosqCluster.Helper.XStringOrder

/-!
# Routes

`server/routes.cpp`. The routes are kept in a `map` under their methods and URLs. A handler is a
pointer, which may be null; what a handler does is left open, and so are the request and the
response but for what is asked of them.

## Main definitions

* `RouteKey`, with `RouteKey.lt` and `RouteKey.eq`;
* `Routes.register` and `Routes.process`;
* `TotallyOrdered`: a comparison is a strict total order, and an equality goes with it.

## Main results

* `RouteKey.isStrictTotalOrder`: the order of the keys;
* `Routes.process_of_ne_head`: the handler that was registered last is called;
* `keysOrdered_lastRegistered`: both, with the overloads of the operators.
-/

namespace MosqCluster.Server

/-- `RouteKey`. -/
structure RouteKey where
  method_ : Int32
  url_ : Bytes
  deriving DecidableEq

namespace RouteKey

/-- `RouteKey::operator<`. -/
def lt (key src : RouteKey) : Execution Bool :=
  if key.method_ < src.method_ then .pure true
  else if src.method_ < key.method_ then .pure false
  else xstring.lt key.url_ src.url_

/-- `RouteKey::operator==`. -/
def eq (key src : RouteKey) : Execution Bool :=
  if key.method_ = src.method_ then xstring.eq key.url_ src.url_ else .pure false

/-- What `operator<` returns. -/
def less (key src : RouteKey) : Bool :=
  if key.method_ < src.method_ then true
  else if src.method_ < key.method_ then false
  else xstringLess key.url_ src.url_

end RouteKey

/-- `HTTP_HEAD`. -/
def httpHead : Int32 := 2

/-- What is asked of a request and of a response. -/
structure Interface (Req Resp : Type) where
  method : Req → Int32
  url : Req → Bytes
  setStatus : Resp → Int32 → Resp

/-- `Routes`, for handlers of a type; `none` is a null pointer. -/
abbrev Routes (ρ : Type) := ComparisonMap RouteKey (Option ρ)

variable {ρ Req Resp : Type}

/-- `RouteUnknown::Process`. -/
def RouteUnknown.process (http : Interface Req Resp) (resp : Resp) : Resp × Int32 :=
  (http.setStatus resp 404, 0)

/-- `RouteHeadOk::Process`. -/
def RouteHeadOk.process (http : Interface Req Resp) (resp : Resp) : Resp × Int32 :=
  (http.setStatus resp 200, 0)

namespace Routes

/-- `Register`. -/
def register (route_table_ : Routes ρ) (rkey : RouteKey) (rproc : Option ρ) : Routes ρ :=
  ComparisonMap.insert RouteKey.less rkey rproc route_table_

/-- `Register`, of a handler under its own key. -/
def registerProc (route_key : ρ → RouteKey) (route_table_ : Routes ρ) (rproc : ρ) : Routes ρ :=
  route_table_.register (route_key rproc) (some rproc)

/-- `Process`, where the handlers do what `run` says. -/
def process (http : Interface Req Resp) (run : ρ → Req → Resp → Resp × Int32)
    (route_table_ : Routes ρ) (req : Req) (resp : Resp) : Resp × Int32 :=
  if http.method req = httpHead then
    if route_table_.any fun entry => entry.1.url_ = http.url req then
      RouteHeadOk.process http resp
    else RouteUnknown.process http resp
  else
    match ComparisonMap.find? RouteKey.less ⟨http.method req, http.url req⟩ route_table_ with
    | some (some rp) => run rp req resp
    | _ => RouteUnknown.process http resp

/-- The routes after calls of `Register`. -/
def ofCalls (calls : List (RouteKey × Option ρ)) : Routes ρ :=
  calls.foldl (fun routes call => routes.register call.1 call.2) []

/-- The handler that was registered last under a key, if it is not null. -/
def lastRegistered (calls : List (RouteKey × Option ρ)) (key : RouteKey) : Option ρ :=
  (calls.reverse.find? (·.1 = key)).bind (·.2)

end Routes

/-- A comparison always returns, and is a strict total order; the equality says that neither of two
values is less than the other. -/
structure TotallyOrdered {α : Type} (lt eq : α → α → Execution Bool) : Prop where
  returns : ∀ a b, ∃ r, (lt a b).Returns r
  order : IsStrictTotalOrder α fun a b => (lt a b).Returns true
  consistent : ∀ a b, ((eq a b).Returns true ↔ ¬ (lt a b).Returns true ∧ ¬ (lt b a).Returns true) ∧
    ∃ r, (eq a b).Returns r

/-- A comparison that returns what a strict total order says, and an equality. -/
theorem TotallyOrdered.of_returns {α : Type} [DecidableEq α] {lt eq : α → α → Execution Bool}
    {less : α → α → Bool} (horder : IsStrictTotalOrder α fun a b => less a b = true)
    (hlt : ∀ a b, (lt a b).Returns (less a b)) (heq : ∀ a b, (eq a b).Returns (decide (a = b))) :
    TotallyOrdered lt eq := by
  have hiff : ∀ a b, (lt a b).Returns true ↔ less a b = true := fun a b =>
    ⟨fun h => (hlt a b).unique h, fun h => h ▸ hlt a b⟩
  refine ⟨fun a b => ⟨_, hlt a b⟩, ?_, fun a b => ⟨?_, _, heq a b⟩⟩
  · simp only [hiff]
    exact horder
  · have hreturns : (eq a b).Returns true ↔ a = b :=
      ⟨fun h => of_decide_eq_true ((heq a b).unique h), fun h => (decide_eq_true h) ▸ heq a b⟩
    rw [hreturns, hiff, hiff]
    constructor
    · rintro rfl
      have hirrefl := irrefl_of (fun a b => less a b = true) a
      exact ⟨hirrefl, hirrefl⟩
    · rintro ⟨hab, hba⟩
      exact Std.Trichotomous.trichotomous (r := fun a b => less a b = true) a b hab hba

/-! ## The order of the keys -/

namespace RouteKey

variable {key src : RouteKey}

/-- The methods decide, or else the URLs do. -/
theorem less_iff : less key src = true ↔
    key.method_ < src.method_ ∨
      key.method_ = src.method_ ∧ xstringLess key.url_ src.url_ = true := by
  rw [less]
  split_ifs with hlt hgt
  · exact iff_of_true rfl (.inl hlt)
  · refine iff_of_false (by simp) ?_
    rintro (hlt' | ⟨heq, -⟩)
    · exact hlt hlt'
    · exact Int32.lt_irrefl (heq ▸ hgt)
  · rw [Int32.lt_iff_toInt_lt] at hlt hgt
    have heq : key.method_ = src.method_ := Int32.toInt_inj.mp (by omega)
    rw [heq, or_iff_right Int32.lt_irrefl, and_iff_right rfl]

/-- The order of the keys is a strict total order. -/
instance isStrictTotalOrder : IsStrictTotalOrder RouteKey fun key src => less key src = true where
  irrefl key := by
    rw [less_iff, not_or]
    refine ⟨Int32.lt_irrefl, fun h => ?_⟩
    exact irrefl_of (fun s t => xstringLess s t = true) key.url_ h.2
  trans key src key' h h' := by
    rw [less_iff] at h h' ⊢
    rcases h with hlt | ⟨heq, hless⟩
    · rcases h' with hlt' | ⟨heq', -⟩
      · exact .inl (Int32.lt_trans hlt hlt')
      · exact .inl (heq' ▸ hlt)
    · rcases h' with hlt' | ⟨heq', hless'⟩
      · exact .inl (heq ▸ hlt')
      · exact .inr ⟨heq.trans heq',
          trans_of (fun s t => xstringLess s t = true) hless hless'⟩
  trichotomous key src h h' := by
    obtain ⟨method, url⟩ := key
    obtain ⟨method', url'⟩ := src
    rw [less_iff, not_or] at h h'
    have hmethod : method = method' := by
      have hle : ¬ method < method' := h.1
      have hle' : ¬ method' < method := h'.1
      rw [Int32.lt_iff_toInt_lt] at hle hle'
      exact Int32.toInt_inj.mp (by omega)
    subst hmethod
    have hurl : url = url' := Std.Trichotomous.trichotomous
      (r := fun s t => xstringLess s t = true) url url' (fun hless => h.2 ⟨rfl, hless⟩)
      fun hless => h'.2 ⟨rfl, hless⟩
    rw [hurl]

theorem returns_lt (key src : RouteKey) : (lt key src).Returns (less key src) := by
  rw [lt, less]
  split_ifs
  · exact Execution.returns_pure.mpr rfl
  · exact Execution.returns_pure.mpr rfl
  · exact (xstring.agree_xstring key.url_ src.url_).lt

theorem returns_eq (key src : RouteKey) : (eq key src).Returns (decide (key = src)) := by
  obtain ⟨method, url⟩ := key
  obtain ⟨method', url'⟩ := src
  rw [eq]
  by_cases hmethod : method = method'
  · rw [if_pos hmethod]
    simpa [hmethod] using (xstring.agree_xstring url url').eq
  · rw [if_neg hmethod]
    simp [hmethod]

end RouteKey

/-! ## What is called -/

namespace Routes

theorem ofCalls_eq (calls : List (RouteKey × Option ρ)) :
    ofCalls calls = ComparisonMap.ofList RouteKey.less calls := rfl

/-- A request that is not a HEAD request is given to the handler that was registered last under its
method and its URL. -/
theorem process_of_ne_head (http : Interface Req Resp) (run : ρ → Req → Resp → Resp × Int32)
    (calls : List (RouteKey × Option ρ)) {req : Req} (h : http.method req ≠ httpHead)
    (resp : Resp) :
    (ofCalls calls).process http run req resp =
      match lastRegistered calls ⟨http.method req, http.url req⟩ with
      | some rp => run rp req resp
      | none => (http.setStatus resp 404, 0) := by
  rw [process, if_neg h, ofCalls_eq, ComparisonMap.find?_ofList, lastRegistered]
  cases calls.reverse.find? (·.1 = ⟨http.method req, http.url req⟩) with
  | none => rfl
  | some call =>
    obtain ⟨key, rproc⟩ := call
    cases rproc with
    | none => rfl
    | some rp => rfl

end Routes

/-- The strings and the keys of routes are totally ordered, with their equality; the overloads of
the operators agree with it for an operand with the same content, whose length is an `int`; and the
handler that was registered last is called for a request that is not a HEAD request. -/
theorem keysOrdered_lastRegistered :
    TotallyOrdered xstring.lt xstring.eq ∧
    (∀ s t, xstring.Agree s t (xstring.lt s t) (xstring.gt s t) (xstring.eq s t)
      (xstring.ne s t)) ∧
    (∀ s t : Bytes, t.length < 2 ^ 31 →
      xstring.Agree s t (xstring.ltString s t) (xstring.gtString s t) (xstring.eqString s t)
        (xstring.neString s t)) ∧
    (∀ (s t rest : Bytes), 0 ∉ t → t.length < 2 ^ 31 →
      xstring.Agree s t (xstring.ltChars s (some (t ++ 0 :: rest)))
        (xstring.gtChars s (some (t ++ 0 :: rest))) (xstring.eqChars s (some (t ++ 0 :: rest)))
        (xstring.neChars s (some (t ++ 0 :: rest)))) ∧
    TotallyOrdered RouteKey.lt RouteKey.eq ∧
    ∀ (ρ Req Resp : Type) (http : Interface Req Resp) (run : ρ → Req → Resp → Resp × Int32)
      (calls : List (RouteKey × Option ρ)) (req : Req) (resp : Resp),
      http.method req ≠ httpHead →
        (Routes.ofCalls calls).process http run req resp =
          match Routes.lastRegistered calls ⟨http.method req, http.url req⟩ with
          | some rp => run rp req resp
          | none => (http.setStatus resp 404, 0) :=
  ⟨.of_returns xstring.isStrictTotalOrder (fun s t => (xstring.agree_xstring s t).lt)
      fun s t => (xstring.agree_xstring s t).eq,
    xstring.agree_xstring, fun s _ h => xstring.agree_string s h,
    fun s _ rest hzero h => xstring.agree_chars s hzero h rest,
    .of_returns RouteKey.isStrictTotalOrder RouteKey.returns_lt RouteKey.returns_eq,
    fun _ _ _ http run calls _ resp h => Routes.process_of_ne_head http run calls h resp⟩

/-- Two strings, and a request for a route that has been registered twice. -/
theorem keysOrdered_lastRegistered_twice :
    xstring.Agree (bytes "a") (bytes "b") (xstring.ltString (bytes "a") (bytes "b"))
      (xstring.gtString (bytes "a") (bytes "b")) (xstring.eqString (bytes "a") (bytes "b"))
      (xstring.neString (bytes "a") (bytes "b")) ∧
    xstring.Agree (bytes "a") (bytes "b") (xstring.ltChars (bytes "a") (some (bytes "b" ++ [0])))
      (xstring.gtChars (bytes "a") (some (bytes "b" ++ [0])))
      (xstring.eqChars (bytes "a") (some (bytes "b" ++ [0])))
      (xstring.neChars (bytes "a") (some (bytes "b" ++ [0]))) ∧
    (Routes.ofCalls [(⟨1, bytes "/"⟩, some 7), (⟨1, bytes "/"⟩, some 8)]).process
      (⟨fun _ => 1, fun _ => bytes "/", fun _ code => [code]⟩ : Interface Unit (List Int32))
      (fun rp _ resp => (resp ++ [rp], 0)) () [] = ([8], 0) := by
  obtain ⟨-, -, hstring, hchars, -, hroutes⟩ := keysOrdered_lastRegistered
  exact ⟨hstring (bytes "a") (bytes "b") (by decide),
    hchars (bytes "a") (bytes "b") [] (by decide) (by decide),
    hroutes Int32 Unit (List Int32) ⟨fun _ => 1, fun _ => bytes "/", fun _ code => [code]⟩
      (fun rp _ resp => (resp ++ [rp], 0)) [(⟨1, bytes "/"⟩, some 7), (⟨1, bytes "/"⟩, some 8)] ()
      [] (by decide)⟩

end MosqCluster.Server
