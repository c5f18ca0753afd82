import MosqCluster.Http.Parser.HeaderRun
import MosqCluster.Http.Parser.ParseUrl
import MosqCluster.Http.Queries

/-!
# Request targets

A URL can be parsed by itself, and it can be read as the target of a request. Both ways step the
same automaton, but a request has states of its own for the values of its query, and these do not
take a question mark.

## Main definitions

* `queryOf`: the query of a target;
* `targetChar`: what the states of the target do with a byte;
* `ParsesGet`: a request for the target is parsed to its end.

## Main results

* `InTarget.run`: the request parser follows the automaton of URLs through a target;
* `parsesGet_iff`: when a URL that is accepted by itself is the target of a request that is parsed.
-/

namespace MosqCluster.Http

/-- Before the fragment. -/
abbrev HASH : UInt8 := '#'

/-! ## The query of a target -/

/-- The part of a target before its fragment. -/
def beforeFragment (t : Bytes) : Bytes := t.takeWhile (· ≠ HASH)

/-- The query of a target: what is behind the first question mark, and not in the fragment. -/
def queryOf (t : Bytes) : Bytes := ((beforeFragment t).dropWhile (· ≠ QUESTION)).drop 1

/-- No value in a query string holds a question mark. -/
def NoQuestion (q : Bytes) : Prop := ∀ piece ∈ q.splitOn AMPERSAND, QUESTION ∉ (splitPiece piece).2

instance (q : Bytes) : Decidable (NoQuestion q) :=
  inferInstanceAs (Decidable (∀ piece ∈ q.splitOn AMPERSAND, QUESTION ∉ (splitPiece piece).2))

variable {t q : Bytes} {ch : UInt8} {s p e : State} {l l' : Loop} {tail : Bytes}

/-- No query. -/
theorem noQuestion_nil : NoQuestion [] := by
  rw [NoQuestion, List.splitOn_nil, List.forall_mem_singleton]
  decide

/-- A byte of a name does not matter. -/
theorem noQuestion_cons (hch : ch ≠ EQUALS) : NoQuestion (ch :: q) ↔ NoQuestion q := by
  -- a byte before all goes to the first piece
  obtain ⟨piece, pieces, hq⟩ := List.exists_cons_of_ne_nil (List.splitOn_ne_nil AMPERSAND q)
  rw [NoQuestion, NoQuestion, List.splitOn_cons_eq_if_modifyHead, hq, List.modifyHead_cons]
  split_ifs
  · simp [splitPiece]
  · simp [splitPiece, hch]

/-- A byte of a value does: an ampersand ends the value, and it must not be a question mark. -/
theorem noQuestion_value_cons :
    NoQuestion (EQUALS :: ch :: q) ↔
      if ch = AMPERSAND then NoQuestion q else ch ≠ QUESTION ∧ NoQuestion (EQUALS :: q) := by
  obtain ⟨piece, pieces, hq⟩ := List.exists_cons_of_ne_nil (List.splitOn_ne_nil AMPERSAND q)
  have hne : (EQUALS == AMPERSAND) = false := by decide
  simp only [NoQuestion, List.splitOn_cons_eq_if_modifyHead, hq, hne, Bool.false_eq_true, if_false]
  by_cases hand : ch = AMPERSAND
  · simp [hand, splitPiece]
  · simp [hand, splitPiece, ne_comm, and_assoc]

/-! ## One byte of a target -/

/-- The states of the value of a query. -/
def State.inValue : State → Bool
  | .reqQueryValueStart | .reqQueryValue => true
  | _ => false

/-- The states of the fragment. -/
def State.inFragment : State → Bool
  | .reqFragmentStart | .reqFragment => true
  | _ => false

/-- The states before the query are no others. -/
theorem State.disjoint_of_inUrl (hs : s.inUrl) : s.inQuery = false ∧ s.inFragment = false := by
  revert hs
  cases s <;> decide

/-- Nor are those of the fragment. -/
theorem State.disjoint_of_inFragment (hs : s.inFragment) :
    s.inUrl = false ∧ s.inQuery = false := by
  revert hs
  cases s <;> decide

/-- What the states of the target do with a byte that does not end it: the next state, and the
macros on the way. -/
def targetChar (s : State) (ch : UInt8) : State × List Op :=
  match s with
  | .reqSpacesBeforeUrl => (parseUrlChar s ch, [.mark .url])
  | .reqSchema | .reqSchemaSlash | .reqSchemaSlashSlash | .reqServerStart => (parseUrlChar s ch, [])
  | .reqServer | .reqServerWithAt | .reqPath =>
    if ch = '?' then (.reqQueryStringStart, [.callbackData .url 0]) else (parseUrlChar s ch, [])
  | .reqQueryStringStart | .reqQueryString =>
    if ch = '=' then (.reqQueryValueStart, [.mark .queryField, .callbackData .queryField 0])
    else if ch = '#' then (.reqFragmentStart, [.mark .queryField])
    else (parseUrlChar s ch, [.mark .queryField])
  | .reqQueryValueStart | .reqQueryValue =>
    if ch = '&' then (.reqQueryStringStart, [.mark .queryValue, .callbackData .queryValue 0])
    else if ch = '#' then (.reqFragmentStart, [.mark .queryValue, .callbackData .queryValue 0])
    else (parseUrlChar s ch, [.mark .queryValue])
  | .reqFragmentStart | .reqFragment => (parseUrlChar s ch, [.mark .fragment])
  | _ => (.dead, [])

/-- The switch does so. -/
theorem dispatch_target {parser : HttpParser}
    (hs : parser.state.inUrl ∨ parser.state.inQuery ∨ parser.state.inFragment)
    (hmethod : parser.method ≠ .CONNECT) (hch : ch ≠ ' ' ∧ ch ≠ CR ∧ ch ≠ LF) (tail : Bytes) :
    dispatch parser ch tail =
      if (targetChar parser.state ch).1 = .dead then
        .fail { parser with state := .dead } .INVALID_URL (targetChar parser.state ch).2
      else
        .next { parser with state := (targetChar parser.state ch).1 }
          (targetChar parser.state ch).2 := by
  have hstep : ∀ ops, stepUrl parser ch ops =
      if parseUrlChar parser.state ch = .dead then
        .fail { parser with state := .dead } .INVALID_URL ops
      else .next { parser with state := parseUrlChar parser.state ch } ops := by
    intro ops
    rw [stepUrl]
    split_ifs with hdead
    · simp only [hdead]
    · rfl
  -- one case of the switch for each state of the target; the other states are none
  cases hstate : parser.state <;> rw [hstate] at hs hstep <;> first
    | exact absurd hs (by decide)
    | simp only [dispatch, hstate, targetChar, onReqSpacesBeforeUrl, onReqSchema, onReqPath,
        onReqQueryString, onReqQueryValue, onReqFragment, hmethod, hch, if_false, decide_false,
        Bool.or_false, Bool.false_eq_true, hstep]
  -- what is left are the question mark and the delimiters, which the cases look for themselves
  all_goals split_ifs <;> first | rfl | simp_all

/-- The target as a URL is in the state `p`, and the request parser in `e`: the same one, or
another one of the query. -/
def Related (p e : State) : Prop :=
  (p = .reqQueryStringStart ∨ p = .reqQueryString) ∧ e.inQuery = true ∨
    (p.inUrl ∨ p.inFragment) ∧ e = p

/-- A byte in the query of a URL. -/
theorem parseUrlChar_query (hp : p = .reqQueryStringStart ∨ p = .reqQueryString)
    (hlive : parseUrlChar p ch ≠ .dead) :
    ch = HASH ∧ parseUrlChar p ch = .reqFragmentStart ∨
      ch ≠ HASH ∧ parseUrlChar p ch = .reqQueryString ∧ (isUrlChar ch = true ∨ ch = QUESTION) := by
  revert hlive
  rcases hp with rfl | rfl <;> unfold parseUrlChar <;> simp only [] <;> split_ifs <;> simp_all
  all_goals first | decide | (rintro rfl; simp_all [isUrlChar])

/-- A byte in a value: a question mark is not taken. -/
theorem parseUrlChar_value (he : e = .reqQueryValueStart ∨ e = .reqQueryValue)
    (hch : ch ≠ AMPERSAND ∧ ch ≠ HASH) (hurl : isUrlChar ch = true ∨ ch = QUESTION) :
    parseUrlChar e ch = if ch = QUESTION then .dead else .reqQueryValue := by
  rcases eq_or_ne ch QUESTION with rfl | hne
  · rcases he with rfl | rfl <;> rfl
  · have hurl := hurl.resolve_right hne
    obtain ⟨hspace, hcr, hlf, htab, hff⟩ := ne_of_isUrlChar hurl
    have hdelimiter : isDelimiter ch = false := by simp [isDelimiter, hch]
    rcases he with rfl | rfl <;>
      simp [parseUrlChar, hspace, hcr, hlf, htab, hff, hurl, hdelimiter, hne]

/-- A byte before the query: a question mark starts it, and the fragment may follow a path. -/
theorem parseUrlChar_inUrl (hs : s.inUrl) (hlive : parseUrlChar s ch ≠ .dead) :
    ch = QUESTION ∧ parseUrlChar s ch = .reqQueryStringStart ∨
      ch = HASH ∧ parseUrlChar s ch = .reqFragmentStart ∨
        ch ≠ QUESTION ∧ ch ≠ HASH ∧ (parseUrlChar s ch).inUrl := by
  rcases parseUrlChar_url hs hlive with ⟨hopen, hurl⟩ | ⟨-, ⟨rfl, rfl⟩ | ⟨rfl, hs⟩⟩
  · -- the URL goes on, which neither of the two delimiters lets it
    have hch : ch ≠ QUESTION ∧ ch ≠ HASH := by
      constructor <;> rintro rfl <;> revert hurl <;> cases s <;> decide
    have hnext : (parseUrlChar s ch).inUrl := by
      revert hopen
      cases parseUrlChar s ch <;> decide
    exact .inr (.inr ⟨hch.1, hch.2, hnext⟩)
  · exact .inr (.inl ⟨rfl, rfl⟩)
  · exact .inl ⟨rfl, parseUrlChar_questionMark (by assumption) hlive⟩

/-- The fragment is not left. -/
theorem inFragment_parseUrlChar (hs : s.inFragment) (hlive : parseUrlChar s ch ≠ .dead) :
    (parseUrlChar s ch).inFragment := by
  have hfragment : s = .reqFragmentStart ∨ s = .reqFragment := by
    revert hs
    cases s <;> decide
  rcases parseUrlChar_fragment hfragment hlive with hnext | hnext <;> rw [hnext] <;> rfl

/-- Outside of the query the request parser steps the automaton. -/
theorem targetChar_eq (hs : s.inUrl ∨ s.inFragment) (hlive : parseUrlChar s ch ≠ .dead) :
    (targetChar s ch).1 = parseUrlChar s ch := by
  have hmark : ∀ s, s = .reqServer ∨ s = .reqServerWithAt ∨ s = .reqPath →
      parseUrlChar s '?' = .reqQueryStringStart := by
    rintro s (rfl | rfl | rfl) <;> rfl
  cases s <;> first
    | rfl
    | exact absurd hs (by decide)
    | (rw [targetChar]
       split_ifs with hch
       · rw [hch, hmark _ (by decide)]
       · rfl)

/-- A byte that is not dead in the automaton of hosted URLs steps that of all URLs. -/
theorem hostedChar_eq (h : hostedChar p ch ≠ .dead) : hostedChar p ch = parseUrlChar p ch := by
  rw [hostedChar] at h ⊢
  split_ifs at h ⊢ <;> first | rfl | exact absurd rfl h

/-- What a byte of a URL does in the state `e` of the request parser: the next state of the URL by
itself, and the next state of the request parser. -/
inductive Turn (e : State) (ch : UInt8) : State → State → Prop
  | query : e.inUrl → ch = QUESTION → Turn e ch .reqQueryStringStart .reqQueryStringStart
  | hash : e.inUrl ∨ e.inQuery → ch = HASH → Turn e ch .reqFragmentStart .reqFragmentStart
  | url {s : State} : e.inUrl → ch ≠ QUESTION → ch ≠ HASH → s.inUrl → Turn e ch s s
  | fragment {s : State} : e.inFragment → s.inFragment → Turn e ch s s
  | equals : e.inQuery → e.inValue = false → ch = EQUALS →
    Turn e ch .reqQueryString .reqQueryValueStart
  | name : e.inQuery → e.inValue = false → ch ≠ EQUALS → ch ≠ HASH →
    Turn e ch .reqQueryString .reqQueryString
  | ampersand : e.inValue → ch = AMPERSAND → Turn e ch .reqQueryString .reqQueryStringStart
  | question : e.inValue → ch = QUESTION → Turn e ch .reqQueryString .dead
  | value : e.inValue → ch ≠ AMPERSAND → ch ≠ HASH → ch ≠ QUESTION →
    Turn e ch .reqQueryString .reqQueryValue

/-- Every byte of a URL does one of these. -/
theorem turn (h : Related p e) (hlive : hostedChar p ch ≠ .dead) :
    Turn e ch (hostedChar p ch) (targetChar e ch).1 := by
  have hhosted := hostedChar_eq hlive
  rw [hhosted] at hlive ⊢
  obtain ⟨hp, he⟩ | ⟨hp, rfl⟩ := h
  · -- in the query, where the request parser has states of its own
    -- the two states of the query of a URL take the same bytes
    have hlike : parseUrlChar .reqQueryStringStart ch = parseUrlChar p ch ∧
        parseUrlChar .reqQueryString ch = parseUrlChar p ch := by
      rcases hp with rfl | rfl <;> exact ⟨rfl, rfl⟩
    have hquery := parseUrlChar_query hp hlive
    cases e <;> first | exact absurd he (by decide) | skip
    case reqQueryStringStart | reqQueryString =>
      rw [targetChar]
      rcases hquery with ⟨rfl, hnext⟩ | ⟨hne, hnext, -⟩
      · rw [hnext]
        exact .hash (.inr rfl) rfl
      · rw [hnext, if_neg hne]
        split_ifs with hequals
        · exact .equals rfl rfl hequals
        · simp only [hlike, hnext]
          exact .name rfl rfl hequals hne
    case reqQueryValueStart | reqQueryValue =>
      rw [targetChar]
      rcases hquery with ⟨rfl, hnext⟩ | ⟨hne, hnext, hurl⟩
      · rw [hnext]
        exact .hash (.inr rfl) rfl
      · rw [hnext, if_neg hne]
        split_ifs with hand
        · exact .ampersand rfl hand
        · -- only the states of a value look at the byte once more
          have hvalue := fun e he => parseUrlChar_value (e := e) he ⟨hand, hne⟩ hurl
          simp only [hvalue _ (.inl rfl), hvalue _ (.inr rfl)]
          split_ifs with hquestion
          · exact .question rfl hquestion
          · exact .value rfl hand hne hquestion
  · -- in the same state
    rw [targetChar_eq hp hlive]
    rcases hp with hurl | hfragment
    · rcases parseUrlChar_inUrl hurl hlive with ⟨hch, hnext⟩ | ⟨hch, hnext⟩ | ⟨hq, hh, hnext⟩
      · rw [hnext]
        exact .query hurl hch
      · rw [hnext]
        exact .hash (.inl hurl) hch
      · exact .url hurl hq hh hnext
    · exact .fragment hfragment (inFragment_parseUrlChar hfragment hlive)

/-- The states go on to be related, unless the request parser is dead. -/
theorem Turn.related {s s' : State} (h : Turn e ch s s') (hlive : s' ≠ .dead) : Related s s' := by
  cases h with
  | question => exact absurd rfl hlive
  | query => exact .inl ⟨.inl rfl, rfl⟩
  | hash => exact .inr ⟨.inr rfl, rfl⟩
  | url _ _ _ hs => exact .inr ⟨.inl hs, rfl⟩
  | fragment _ hs => exact .inr ⟨.inr hs, rfl⟩
  | equals | name | ampersand | value => exact .inl ⟨.inr rfl, rfl⟩

/-- The request parser does not come back to the URL, and stays in the fragment. -/
theorem Turn.place {s s' : State} (h : Turn e ch s s') :
    (s'.inUrl → e.inUrl) ∧ (e.inFragment → s'.inFragment) := by
  cases h with
  | url he _ _ hs =>
    exact ⟨fun _ => he, fun hf => absurd hf (by simp [(State.disjoint_of_inUrl he).2])⟩
  | fragment he hs =>
    exact ⟨fun hu => absurd hu (by simp [(State.disjoint_of_inFragment hs).1]), fun _ => hs⟩
  | query he | hash he =>
    refine ⟨fun hu => absurd hu (by decide), fun hf => ?_⟩
    have hdisjoint := State.disjoint_of_inFragment hf
    simp [hdisjoint] at he
  | equals he | name he =>
    exact ⟨fun hu => absurd hu (by decide),
      fun hf => absurd he (by simp [(State.disjoint_of_inFragment hf).2])⟩
  | ampersand he | question he | value he =>
    refine ⟨fun hu => absurd hu (by decide), fun hf => ?_⟩
    revert he hf
    cases e <;> decide

/-! ## The rest of a target -/

/-- The question marks in what is left of a target do not stop the request parser. -/
def Fits (e : State) (t : Bytes) : Prop :=
  if e.inUrl then NoQuestion (queryOf t)
  else if e.inValue then NoQuestion (EQUALS :: beforeFragment t)
  else if e.inQuery then NoQuestion (beforeFragment t)
  else True

/-- Before the query. -/
theorem fits_url (he : e.inUrl) (t : Bytes) : Fits e t ↔ NoQuestion (queryOf t) := by
  rw [Fits, if_pos he]

/-- In a name of the query. -/
theorem fits_name (he : e.inQuery) (hv : e.inValue = false) (t : Bytes) :
    Fits e t ↔ NoQuestion (beforeFragment t) := by
  cases e <;> first | exact Iff.rfl | exact absurd he (by decide) | exact absurd hv (by decide)

/-- In a value of it. -/
theorem fits_value (he : e.inValue) (t : Bytes) :
    Fits e t ↔ NoQuestion (EQUALS :: beforeFragment t) := by
  cases e <;> first | exact Iff.rfl | exact absurd he (by decide)

/-- Behind it. -/
theorem fits_fragment (he : e.inFragment) (t : Bytes) : Fits e t := by
  cases e <;> first | exact trivial | exact absurd he (by decide)

/-- Nothing is left of it. -/
theorem fits_nil (he : e.inUrl ∨ e.inQuery ∨ e.inFragment) : Fits e [] := by
  obtain he | he | he := he
  · exact (fits_url he _).mpr noQuestion_nil
  · have hvalue : NoQuestion [EQUALS] := by decide
    cases hv : e.inValue with
    | false => exact (fits_name he hv _).mpr noQuestion_nil
    | true => exact (fits_value hv _).mpr hvalue
  · exact fits_fragment he _

/-- A byte that does not start the fragment. -/
theorem beforeFragment_cons (hch : ch ≠ HASH) :
    beforeFragment (ch :: t) = ch :: beforeFragment t := by
  simp [beforeFragment, hch]

/-- A byte that starts neither the fragment nor the query. -/
theorem queryOf_cons (hh : ch ≠ HASH) (hq : ch ≠ QUESTION) : queryOf (ch :: t) = queryOf t := by
  rw [queryOf, queryOf, beforeFragment_cons hh, List.dropWhile_cons_of_pos (by simpa using hq)]

/-- The byte that starts the fragment: no question mark matters behind it. -/
theorem fits_hash (he : e.inUrl ∨ e.inQuery) (t : Bytes) : Fits e (HASH :: t) := by
  -- nothing is left before the fragment
  show Fits e []
  exact fits_nil (he.imp_right .inl)

/-- What is left fits behind a byte, unless the request parser is dead. -/
theorem Turn.fits_iff {s s' : State} (h : Turn e ch s s') (t : Bytes) :
    Fits e (ch :: t) ↔ s' ≠ .dead ∧ Fits s' t := by
  have hlive : ∀ {s : State}, s.inUrl ∨ s.inFragment → s ≠ .dead := by
    rintro s hs rfl
    exact absurd hs (by decide)
  -- only at a question mark in a value the right side is false
  cases h with
  | query he hch =>
    rw [fits_url he, fits_name rfl rfl, hch, queryOf, beforeFragment_cons (by decide)]
    exact (and_iff_right (by decide)).symm
  | hash he hch =>
    rw [hch]
    exact iff_of_true (fits_hash he t) ⟨by decide, fits_fragment rfl t⟩
  | url he hq hh hs =>
    rw [fits_url he, fits_url hs, queryOf_cons hh hq]
    exact (and_iff_right (hlive (.inl hs))).symm
  | fragment he hs =>
    exact iff_of_true (fits_fragment he _) ⟨hlive (.inr hs), fits_fragment hs t⟩
  | equals he hv hch =>
    rw [fits_name he hv, fits_value rfl, hch, beforeFragment_cons (by decide)]
    exact (and_iff_right (by decide)).symm
  | name he hv hequals hh =>
    rw [fits_name he hv, fits_name rfl rfl, beforeFragment_cons hh, noQuestion_cons hequals]
    exact (and_iff_right (by decide)).symm
  | ampersand he hch =>
    rw [fits_value he, fits_name rfl rfl, hch, beforeFragment_cons (by decide),
      noQuestion_value_cons, if_pos rfl]
    exact (and_iff_right (by decide)).symm
  | question he hch =>
    rw [fits_value he, hch, beforeFragment_cons (by decide), noQuestion_value_cons,
      if_neg (by decide)]
    exact iff_of_false (fun h => h.1 rfl) fun h => h.1 rfl
  | value he ha hh hq =>
    rw [fits_value he, fits_value rfl, beforeFragment_cons hh, noQuestion_value_cons, if_neg ha,
      and_iff_right hq]
    exact (and_iff_right (by decide)).symm

/-! ## The request parser in a target -/

/-- The mark of the URL and that of the name of a query are not set together. -/
structure TargetMarks (s : State) (marks : Marks) : Prop where
  url : s.inQuery → marks .url = none
  queryField : s.inUrl → marks .queryField = none
  one : marks .url = none ∨ marks .queryField = none

/-- The span that a macro is about. -/
def Op.span : Op → Option SpanKind
  | .mark kind | .callbackData kind _ => some kind
  | _ => none

/-- Macros about other spans leave a mark alone. -/
theorem marks_foldl_of_span {kind : SpanKind} {ops : List Op}
    (h : ∀ op ∈ ops, op.span ≠ some kind) (l : Loop) :
    (ops.foldl Loop.runOp l).marks kind = l.marks kind := by
  induction ops generalizing l with
  | nil => rfl
  | cons op ops ih =>
    have hop := h op List.mem_cons_self
    rw [List.foldl_cons, ih fun op hmem => h op (List.mem_cons_of_mem _ hmem)]
    cases op with
    -- a mark is set for its own span only
    | mark k =>
      have hne : kind ≠ k := fun heq => hop (congrArg some heq.symm)
      rw [Loop.runOp]
      split_ifs
      · rfl
      · exact Function.update_of_ne hne _ _
    | callbackData k stop =>
      have hne : kind ≠ k := fun heq => hop (congrArg some heq.symm)
      rw [Loop.runOp, marks_callbackData, if_neg hne]
    | messageBegin | headersComplete method | messageComplete => rfl

/-- Those about the fragment leave the other marks alone. -/
theorem marks_foldl_of_fragment {kind : SpanKind} {ops : List Op}
    (h : ∀ op ∈ ops, op.span = some .fragment) (hne : kind ≠ .fragment) (l : Loop) :
    (ops.foldl Loop.runOp l).marks kind = l.marks kind := by
  refine marks_foldl_of_span (fun op hmem hop => hne ?_) l
  rw [h op hmem] at hop
  exact (Option.some.inj hop).symm

/-- The spans of a byte: of the URL before the query, and not of the URL behind that. -/
theorem span_targetChar (s : State) (ch : UInt8) :
    (s.inUrl → ∀ op ∈ (targetChar s ch).2, op.span = some .url) ∧
      (s.inQuery → ∀ op ∈ (targetChar s ch).2,
        op.span = some .queryField ∨ op.span = some .queryValue) ∧
      (s.inFragment → ∀ op ∈ (targetChar s ch).2, op.span = some .fragment) := by
  unfold targetChar
  split <;> (try split_ifs) <;> simp [State.inUrl, State.inQuery, State.inFragment, Op.span]

/-- Where the query starts, the URL is passed on. -/
theorem targetChar_query (hs : s.inUrl) (hhosted : hostedChar s ch ≠ .dead)
    (hquery : (targetChar s ch).1.inQuery) : (targetChar s ch).2 = [.callbackData .url 0] := by
  have hlive := hostedChar_eq hhosted ▸ hhosted
  rw [targetChar_eq (.inl hs) hlive] at hquery
  rcases parseUrlChar_inUrl hs hlive with ⟨rfl, -⟩ | ⟨-, hnext⟩ | ⟨-, -, hnext⟩
  · revert hs hhosted
    cases s <;> decide
  · rw [hnext] at hquery
    cases hquery
  · rw [(State.disjoint_of_inUrl hnext).1] at hquery
    cases hquery

/-- A byte of a URL does not set them both. -/
theorem TargetMarks.step (h : TargetMarks l.parser.state l.marks)
    (hrelated : Related p l.parser.state) (hhosted : hostedChar p ch ≠ .dead) :
    TargetMarks (targetChar l.parser.state ch).1
      ((targetChar l.parser.state ch).2.foldl Loop.runOp l).marks := by
  obtain ⟨hurl, hquery, hfragment⟩ := span_targetChar l.parser.state ch
  have hkeep : ∀ {kind : SpanKind}, (∀ op ∈ (targetChar l.parser.state ch).2, op.span ≠ some kind) →
      ((targetChar l.parser.state ch).2.foldl Loop.runOp l).marks kind = l.marks kind :=
    fun hspan => marks_foldl_of_span hspan l
  have hturn := turn hrelated hhosted
  obtain ⟨-, he⟩ | ⟨he | he, heq⟩ := hrelated
  · -- the mark of the URL is not set, and stays so
    have hnone := (hkeep fun op hmem hop => by
      rcases hquery he op hmem with h | h <;> rw [h] at hop <;> cases hop).trans (h.url he)
    refine ⟨fun _ => hnone, fun hnext => ?_, .inl hnone⟩
    rw [(State.disjoint_of_inUrl (hturn.place.1 hnext)).1] at he
    cases he
  · -- before the query no name has been marked; the URL is closed where the query starts
    have hnone := (hkeep fun op hmem hop => by
      rw [hurl (heq ▸ he) op hmem] at hop
      cases hop).trans (h.queryField (heq ▸ he))
    refine ⟨fun hnext => ?_, fun _ => hnone, .inr hnone⟩
    rw [targetChar_query (heq ▸ he) (heq ▸ hhosted) hnext, List.foldl_cons, List.foldl_nil,
      Loop.runOp, marks_callbackData, if_pos rfl]
  · -- the marks of the fragment are not these two
    have hother := hfragment (heq ▸ he)
    have hnext := State.disjoint_of_inFragment (hturn.place.2 (heq ▸ he))
    refine ⟨fun hq => ?_, fun hu => ?_, ?_⟩
    · rw [hnext.2] at hq
      cases hq
    · rw [hnext.1] at hu
      cases hu
    · rw [marks_foldl_of_fragment hother (by decide), marks_foldl_of_fragment hother (by decide)]
      exact h.one

/-- The parser record behind `GET`, but for its state and what has been counted. -/
def getParser : HttpParser :=
  { httpParserInit .request with
    state := .reqSpacesBeforeUrl, method := .GET, index := 4, contentLength := ullongMax }

/-- The request parser is in a target that is in the state `p` as a URL. -/
structure InTarget (l : Loop) (p : State) : Prop where
  related : Related p l.parser.state
  marks : TargetMarks l.parser.state l.marks
  parser : l.parser = { getParser with state := l.parser.state, nread := l.parser.nread }

/-- The states of the target. -/
theorem Related.place (h : Related p e) :
    (e.inUrl ∨ e.inQuery ∨ e.inFragment) ∧ e.parsingHeader = true := by
  obtain ⟨-, he⟩ | ⟨he | he, rfl⟩ := h
  · exact ⟨.inr (.inl he), by revert he; cases e <;> decide⟩
  · exact ⟨.inl he, by revert he; cases e <;> decide⟩
  · exact ⟨.inr (.inr he), by revert he; cases e <;> decide⟩

/-- The bytes of a URL do not end the target. -/
theorem ne_of_hostedChar (h : hostedChar p ch ≠ .dead) : ch ≠ ' ' ∧ ch ≠ CR ∧ ch ≠ LF := by
  have hlive : parseUrlChar p ch ≠ .dead := hostedChar_eq h ▸ h
  refine ⟨?_, ?_, ?_⟩ <;> rintro rfl <;> exact hlive rfl

/-- What the switch does with a byte of a URL. -/
theorem InTarget.dispatch_eq (h : InTarget l p) (hhosted : hostedChar p ch ≠ .dead) (tail : Bytes) :
    dispatch (l.parser.addNread 1) ch tail =
      if (targetChar l.parser.state ch).1 = .dead then
        .fail { l.parser.addNread 1 with state := .dead } .INVALID_URL
          (targetChar l.parser.state ch).2
      else
        .next { l.parser.addNread 1 with state := (targetChar l.parser.state ch).1 }
          (targetChar l.parser.state ch).2 := by
  have hmethod : (l.parser.addNread 1).method = .GET := congrArg (·.method) h.parser
  have hne : (l.parser.addNread 1).method ≠ .CONNECT := by
    rw [hmethod]
    decide
  have hplace : (l.parser.addNread 1).state.inUrl ∨ (l.parser.addNread 1).state.inQuery ∨
      (l.parser.addNread 1).state.inFragment := h.related.place.1
  exact dispatch_target hplace hne (ne_of_hostedChar hhosted) tail

/-- A byte that the request parser takes. -/
theorem InTarget.step (h : InTarget l p) (hhosted : hostedChar p ch ≠ .dead)
    (hlive : (targetChar l.parser.state ch).1 ≠ .dead) :
    ∃ l', Goes l [ch] l' ∧ l'.parser.state = (targetChar l.parser.state ch).1 ∧
      InTarget l' (hostedChar p ch) := by
  have ht := h.dispatch_eq hhosted
  simp only [if_neg hlive] at ht
  refine ⟨_, goes_of_dispatch h.related.place.2 ht rfl, rfl,
    (turn h.related hhosted).related hlive, h.marks.step h.related hhosted, ?_⟩
  -- the record changes in its state and in what has been counted
  exact congrArg (fun parser : HttpParser =>
    { parser.addNread 1 with state := (targetChar l.parser.state ch).1 }) h.parser

/-- A byte that it does not take. -/
theorem InTarget.fails (h : InTarget l p) (hhosted : hostedChar p ch ≠ .dead)
    (hdead : (targetChar l.parser.state ch).1 = .dead)
    (hnread : l.parser.nread.toNat ≤ httpMaxHeaderSize) (tail : Bytes) :
    (mainLoop l 0 (ch :: tail)).Fails := by
  have ht := h.dispatch_eq hhosted tail
  rw [if_pos hdead] at ht
  exact fails_of_dispatch h.related.place.2 hnread (by decide) ht

/-- A dead URL stays so. -/
theorem foldl_hostedChar_dead (t : Bytes) : t.foldl hostedChar .dead = .dead := by
  have hdead : ∀ ch, hostedChar .dead ch = .dead := by
    intro ch
    simp only [hostedChar, parseUrlChar, ite_self]
  induction t with
  | nil => rfl
  | cons ch t ih => rw [List.foldl_cons, hdead, ih]

/-- The request parser reads what is left of a URL, if it fits. -/
theorem InTarget.run (h : InTarget l p) (hhosted : t.foldl hostedChar p ≠ .dead) :
    (Fits l.parser.state t → ∃ l', Goes l t l' ∧ InTarget l' (t.foldl hostedChar p)) ∧
      (¬ Fits l.parser.state t → l.parser.nread.toNat ≤ httpMaxHeaderSize →
        ∀ more, (mainLoop l 0 (t ++ more)).Fails) := by
  -- the induction is on what is left of the target, from any state in it
  induction t generalizing l p with
  | nil =>
    exact ⟨fun _ => ⟨l, .nil l, h⟩, fun hfits => absurd (fits_nil h.related.place.1) hfits⟩
  | cons ch t ih =>
    rw [List.foldl_cons] at hhosted ⊢
    have hfirst : hostedChar p ch ≠ .dead := by
      intro hdead
      rw [hdead] at hhosted
      exact hhosted (foldl_hostedChar_dead t)
    have hfits := (turn h.related hfirst).fits_iff t
    by_cases hdead : (targetChar l.parser.state ch).1 = .dead
    · exact ⟨fun hf => absurd hdead (hfits.mp hf).1,
        fun _ hnread more => h.fails hfirst hdead hnread _⟩
    · obtain ⟨l', hgoes, hstate, hin⟩ := h.step hfirst hdead
      obtain ⟨hrun, hfail⟩ := ih hin hhosted
      rw [hstate] at hrun hfail
      constructor
      · intro hf
        obtain ⟨l'', hgoes', hin'⟩ := hrun (hfits.mp hf).2
        exact ⟨l'', hgoes.trans hgoes', hin'⟩
      · intro hf hnread more
        have hf' : ¬ Fits (targetChar l.parser.state ch).1 t :=
          fun hf' => hf (hfits.mpr ⟨hdead, hf'⟩)
        -- the byte may already be one too many, which is an error as well
        by_cases hroom : l.parser.nread.toNat + [ch].length ≤ httpMaxHeaderSize
        · have hcounted := hgoes.nread hroom
          rw [show ch :: t ++ more = [ch] ++ (t ++ more) from rfl, hgoes.goes hroom]
          exact hfail hf' (by omega) more
        · exact hgoes.overflows hnread (by omega) (t ++ more)

/-! ## The request around a target -/

/-- A request for a target. -/
def getRequest (t : Bytes) : Bytes := bytes "GET " ++ t ++ bytes " HTTP/1.1\r\n\r\n"

/-- A fresh parser reads a request for the target to the end of the message, without an error. -/
def ParsesGet (t : Bytes) : Prop :=
  ∃ result, httpParserExecute (httpParserInit .request) (getRequest t) = some result ∧
    result.parser.httpErrno = .OK ∧ .onMessageComplete ∈ result.calls

/-- The parser record behind the first letter of the request. -/
def methodParser : HttpParser :=
  { httpParserInit .request with
    state := .reqMethod, method := .GET, index := 1, contentLength := ullongMax }

/-- The records that the rest of the method leads through. -/
def methodPath : List (UInt8 × HttpParser) :=
  [(69, { methodParser with index := 2 }), (84, { methodParser with index := 3 }),
    (32, getParser)]

/-- They are read along it. -/
theorem quietPath_method : quietPath methodParser methodPath := by
  refine ⟨rfl, fun nread tail => ?_, rfl, fun nread tail => ?_, rfl, fun nread tail => ?_, trivial⟩
  · simp +decide [dispatch, onReqMethod, methodParser]
  · simp +decide [dispatch, onReqMethod, methodParser]
  · simp +decide [dispatch, onReqMethod, methodParser, getParser]

/-- The method is read, and the target follows. -/
theorem goes_method :
    ∃ l, Goes (.enter (httpParserInit .request)) (bytes "GET ") l ∧
      l.parser.state = .reqSpacesBeforeUrl ∧ InTarget l .reqSpacesBeforeUrl := by
  have hfirst : ∀ tail, dispatch ((httpParserInit .request).addNread 1) 71 tail =
      .next { methodParser with nread := ((httpParserInit .request).addNread 1).nread }
        [.messageBegin] := fun _ => rfl
  -- the first letter starts the message, and the others leave marks and calls alone
  have hletter := goes_of_dispatch (l := .enter (httpParserInit .request)) rfl hfirst rfl
  obtain ⟨l, hrest, hmarks, -, hparser⟩ := goes_quietPath quietPath_method
    (l := { [Op.messageBegin].foldl Loop.runOp (.enter (httpParserInit .request)) with
      parser := { methodParser with nread := ((httpParserInit .request).addNread 1).nread }
      p := 0 + 1 }) rfl
  have hstate : l.parser.state = .reqSpacesBeforeUrl := congrArg (·.state) hparser
  -- no mark has been set so far
  have hnone : ∀ kind, l.marks kind = none := fun kind => congrFun hmarks kind
  refine ⟨l, hletter.trans hrest, hstate, ?_, ?_, ?_⟩
  · rw [hstate]
    exact .inr ⟨.inl rfl, rfl⟩
  · exact ⟨fun _ => hnone _, fun _ => hnone _, .inl (hnone _)⟩
  · rw [hstate]
    exact hparser

/-- The space behind a target. -/
theorem dispatch_space {parser : HttpParser}
    (hs : parser.state.endsUrl ∨ parser.state.inQuery) :
    ∃ ops, (∀ tail, dispatch parser 32 tail =
        .next { parser with state := .reqHttpStart } ops) ∧
      (parser.state.inUrl → ops = [.callbackData .url 0]) ∧
      (parser.state.inQuery → ∀ op ∈ ops, op.span ≠ some .url) ∧
      (parser.state.inFragment → ∀ op ∈ ops, op.span = some .fragment) := by
  -- every state of the target has its own macros for the space
  cases hstate : parser.state <;> rw [hstate] at hs <;> first
    | exact absurd hs (by decide)
    | (refine ⟨_, fun tail => by simp only [dispatch, hstate]; rfl, ?_, ?_, ?_⟩ <;> decide)

/-- It ends the target, and at most one of the two marks is still set. -/
theorem InTarget.space (h : InTarget l p) (hends : p.endsUrl) :
    ∃ l', Goes l [32] l' ∧
      l'.parser = { getParser with state := .reqHttpStart, nread := l'.parser.nread } ∧
      (l'.marks .url = none ∨ l'.marks .queryField = none) := by
  have hs : (l.parser.addNread 1).state.endsUrl ∨ (l.parser.addNread 1).state.inQuery := by
    obtain ⟨-, he⟩ | ⟨-, he⟩ := h.related
    · exact .inr he
    · exact .inl (he ▸ hends)
  obtain ⟨ops, ht, hurl, hquery, hfragment⟩ := dispatch_space hs
  refine ⟨_, goes_of_dispatch h.related.place.2 ht rfl, ?_, ?_⟩
  · exact congrArg (fun parser : HttpParser =>
      { parser.addNread 1 with state := .reqHttpStart }) h.parser
  · show (ops.foldl Loop.runOp l).marks .url = none ∨
      (ops.foldl Loop.runOp l).marks .queryField = none
    obtain he | he | he := h.related.place.1
    · -- the URL is passed on here
      left
      rw [hurl he, List.foldl_cons, List.foldl_nil, Loop.runOp, marks_callbackData, if_pos rfl]
    · left
      -- it has been passed on where the query started
      rw [marks_foldl_of_span (hquery he), h.marks.url he]
    · have hother := hfragment he
      rw [marks_foldl_of_fragment hother (by decide), marks_foldl_of_fragment hother (by decide)]
      exact h.marks.one

/-- The parser record behind the empty line, but for what has been counted. -/
def endParser : HttpParser :=
  { getParser with state := .headersAlmostDone, httpMajor := 1, httpMinor := 1 }

/-- The records from the space behind the target to there. -/
def versionPath : List (UInt8 × HttpParser) :=
  [(72, { getParser with state := .reqHttpH }), (84, { getParser with state := .reqHttpHT }),
    (84, { getParser with state := .reqHttpHTT }), (80, { getParser with state := .reqHttpHTTP }),
    (47, { getParser with state := .reqFirstHttpMajor }),
    (49, { getParser with state := .reqHttpMajor, httpMajor := 1 }),
    (46, { getParser with state := .reqFirstHttpMinor, httpMajor := 1 }),
    (49, { getParser with state := .reqHttpMinor, httpMajor := 1, httpMinor := 1 }),
    (13, { getParser with state := .reqLineAlmostDone, httpMajor := 1, httpMinor := 1 }),
    (10, { getParser with state := .headerFieldStart, httpMajor := 1, httpMinor := 1 }),
    (13, endParser)]

/-- They are read along it. -/
theorem quietPath_version : quietPath { getParser with state := .reqHttpStart } versionPath := by
  iterate 11
    refine ⟨rfl, fun _ _ => rfl, ?_⟩
  exact trivial

/-- The line feed that ends the empty line ends the message. -/
theorem mainLoop_messageEnd (hl : l.parser = { endParser with nread := l.parser.nread })
    (hroom : l.parser.nread.toNat + 1 ≤ httpMaxHeaderSize) :
    ∃ l', mainLoop l 0 [10] = .done l' ∧ l'.marks = l.marks ∧ .onMessageComplete ∈ l'.calls ∧
      l'.parser.httpErrno = .OK ∧ l'.parser.state = .startReq := by
  have hstate : l.parser.state = .headersAlmostDone := congrArg (·.state) hl
  -- there is neither a body nor another protocol, and the connection stays open
  have ht : dispatch (l.parser.addNread 1) 10 [] =
      .next { endParser with state := .startReq, nread := 0 }
        [.headersComplete .GET, .messageComplete] := by
    rw [hl]
    rfl
  have hheader : l.parser.state.parsingHeader := by
    rw [hstate]
    rfl
  refine ⟨_, mainLoop_of_dispatch hheader hroom ht, rfl, ?_, rfl, rfl⟩
  exact List.mem_append_right _ List.mem_cons_self

/-- Left-over callbacks do not change the record. -/
theorem parser_flush (l : Loop) : l.flush.parser = l.parser := by
  simp only [Loop.flush, leftoverOrder, List.foldl_cons, List.foldl_nil, callbackData_frame]

/-- At the end of a message it is enough that one of the marks is not set. -/
theorem ClosesMarks.atMostOneMark (h : ClosesMarks l) (hstate : openMark l.parser.state = none)
    (hone : l.marks .url = none ∨ l.marks .queryField = none) : l.atMostOneMark := by
  rw [Loop.atMostOneMark, leftoverOrder]
  rcases hone with hnone | hnone
  · cases hset : (l.marks .queryField).isSome <;>
      simp [hnone, hset, h.eq_none hstate]
  · cases hset : (l.marks .url).isSome <;>
      simp [hnone, hset, h.eq_none hstate]

/-! ## Requests for URLs that are accepted -/

/-- A URL does not end in the dead state. -/
theorem State.ne_dead_of_endsUrl (hs : s.endsUrl) : s ≠ .dead := by
  rintro rfl
  cases hs

/-- The parser runs its loop over the request. -/
theorem execute_getRequest (t : Bytes) :
    httpParserExecute (httpParserInit .request) (getRequest t) =
      (mainLoop (.enter (httpParserInit .request)) 0 (getRequest t)).finish
        (getRequest t).length := by
  have hne : getRequest t ≠ [] := by
    rw [getRequest, List.append_assoc]
    exact List.append_ne_nil_of_left_ne_nil (by decide) _
  exact httpParserExecute_eq rfl hne

/-- A loop that fails leaves an error. -/
theorem not_parsesGet_of_fails
    (h : (mainLoop (.enter (httpParserInit .request)) 0 (getRequest t)).Fails) :
    ¬ ParsesGet t := by
  obtain ⟨l, n, hloop, herrno⟩ := h
  rintro ⟨result, hresult, hok, -⟩
  rw [execute_getRequest, hloop] at hresult
  obtain rfl := Option.some.inj hresult
  exact herrno hok

/-- A request without its last line feed. -/
def requestHead (t : Bytes) : Bytes := bytes "GET " ++ (t ++ ([32] ++ versionPath.map Prod.fst))

/-- It is all but the last byte. -/
theorem getRequest_eq (t : Bytes) : getRequest t = requestHead t ++ [10] := by
  simp only [getRequest, requestHead, List.append_assoc]
  rfl

/-- So the request is one byte longer. -/
theorem length_getRequest (t : Bytes) : (getRequest t).length = (requestHead t).length + 1 := by
  rw [getRequest_eq, List.length_append, List.length_singleton]

/-- A URL whose values hold no question mark is read to the end of the empty line. -/
theorem goes_request (hends : (t.foldl hostedChar .reqSpacesBeforeUrl).endsUrl)
    (hfits : NoQuestion (queryOf t)) :
    ∃ l, Goes (.enter (httpParserInit .request)) (requestHead t) l ∧
      l.parser = { endParser with nread := l.parser.nread } ∧
      (l.marks .url = none ∨ l.marks .queryField = none) := by
  have hlive := State.ne_dead_of_endsUrl hends
  obtain ⟨l₁, hmethod, hstate, hin⟩ := goes_method
  have hstart : Fits l₁.parser.state t := by
    rw [hstate]
    exact (fits_url rfl t).mpr hfits
  obtain ⟨l₂, htarget, hin'⟩ := (hin.run hlive).1 hstart
  obtain ⟨l₃, hspace, hparser, hone⟩ := hin'.space hends
  obtain ⟨l₄, hversion, hmarks, -, hparser'⟩ := goes_quietPath quietPath_version hparser
  -- the four runs one behind the other
  refine ⟨l₄, hmethod.trans (htarget.trans (hspace.trans hversion)), hparser', ?_⟩
  rwa [hmarks]

/-- A URL with a question mark in a value is an error. -/
theorem fails_of_question (hlive : t.foldl hostedChar .reqSpacesBeforeUrl ≠ .dead)
    (hfits : ¬ NoQuestion (queryOf t)) :
    (mainLoop (.enter (httpParserInit .request)) 0 (getRequest t)).Fails := by
  obtain ⟨l, hmethod, hstate, hin⟩ := goes_method
  have hroom : (Loop.enter (httpParserInit .request)).parser.nread.toNat + (bytes "GET ").length ≤
      httpMaxHeaderSize := by decide
  have hnread : l.parser.nread.toNat ≤ httpMaxHeaderSize := by
    rw [hmethod.nread hroom]
    exact hroom
  have hstart : ¬ Fits l.parser.state t := by
    rw [hstate]
    exact fun h => hfits ((fits_url rfl t).mp h)
  rw [getRequest, List.append_assoc, hmethod.goes hroom]
  exact (hin.run hlive).2 hstart hnread _

/-- A request that does not fit in the header limit is an error. -/
theorem fails_of_long (hends : (t.foldl hostedChar .reqSpacesBeforeUrl).endsUrl)
    (hfits : NoQuestion (queryOf t)) (hlong : httpMaxHeaderSize < (getRequest t).length) :
    (mainLoop (.enter (httpParserInit .request)) 0 (getRequest t)).Fails := by
  obtain ⟨l, hgoes, hparser, -⟩ := goes_request hends hfits
  have hzero : (Loop.enter (httpParserInit .request)).parser.nread.toNat = 0 := rfl
  have hheader : l.parser.state.parsingHeader := by
    rw [hparser]
    rfl
  rw [length_getRequest] at hlong
  rw [getRequest_eq]
  rcases Nat.lt_or_ge httpMaxHeaderSize (requestHead t).length with hover | hroom
  · exact hgoes.overflows (by omega) (by omega) [10]
  · -- the last line feed is one too many
    have hread := hgoes.nread (by omega)
    rw [hgoes.goes (by omega)]
    exact fails_of_overflow hheader (by omega) 10 []

/-- A URL that is accepted, in a request that fits in the header limit, is read to the end of the
message, if its values hold no question mark. -/
theorem parsesGet_of_noQuestion (hends : (t.foldl hostedChar .reqSpacesBeforeUrl).endsUrl)
    (hfits : NoQuestion (queryOf t)) (hroom : (getRequest t).length ≤ httpMaxHeaderSize) :
    ParsesGet t := by
  obtain ⟨l, hgoes, hparser, hone⟩ := goes_request hends hfits
  have hzero : (Loop.enter (httpParserInit .request)).parser.nread.toNat = 0 := rfl
  have hlength := length_getRequest t
  have hread := hgoes.nread (by omega)
  obtain ⟨l', hdone, hmarks, hcomplete, herrno, hstate⟩ :=
    mainLoop_messageEnd hparser (by omega)
  have hloop : mainLoop (.enter (httpParserInit .request)) 0 (getRequest t) = .done l' := by
    rw [getRequest_eq, hgoes.goes (by omega), hdone]
  -- no other mark is open between two messages
  have hclosed := closesMarks_of_heads (heads_of_done hloop)
  have hopen : openMark l'.parser.state = none := by
    rw [hstate]
    rfl
  have hassert : l'.atMostOneMark := hclosed.atMostOneMark hopen (hmarks ▸ hone)
  refine ⟨⟨l'.flush.parser, l'.flush.calls, (getRequest t).length⟩, ?_, ?_, ?_⟩
  · rw [execute_getRequest, hloop, Outcome.finish, if_pos hassert]
  · rw [parser_flush]
    exact herrno
  · rw [calls_flush fun kind hurl hquery => hclosed.eq_none hopen hurl hquery]
    exact List.mem_append_left _ hcomplete

/-- A URL that is accepted by itself is the target of a request that is parsed to its end, if and
only if no value in its query holds a question mark, and the request fits in the header limit. -/
theorem parsesGet_iff {u u' : HttpParserUrl} (hne : t ≠ [])
    (h : httpParserParseUrl t false u = .ok u') :
    ParsesGet t ↔ NoQuestion (queryOf t) ∧ (getRequest t).length ≤ httpMaxHeaderSize := by
  have hends := hosted_of_parseUrl hne h
  have hlive := State.ne_dead_of_endsUrl hends
  refine ⟨fun hget => ?_, fun ⟨hfits, hroom⟩ => parsesGet_of_noQuestion hends hfits hroom⟩
  -- a request with such a value fails at its question mark, and a long one at the limit
  by_contra hcontra
  by_cases hfits : NoQuestion (queryOf t)
  · have hlong := fun hroom => hcontra ⟨hfits, hroom⟩
    exact not_parsesGet_of_fails (fails_of_long hends hfits (Nat.lt_of_not_ge hlong)) hget
  · exact not_parsesGet_of_fails (fails_of_question hlive hfits) hget

/-- The question mark that a query may hold, but not in a value. -/
example : NoQuestion (queryOf (bytes "/a?x?")) ∧ ¬ NoQuestion (queryOf (bytes "/a?x=1?")) := by
  decide

/-- A URL that is accepted by itself, and whose values hold no question mark, is the target of a
request that is parsed to its end, if and only if the request fits in the header limit. -/
theorem parsesGet_of_parseUrl_iff {u u' : HttpParserUrl} (hne : t ≠ [])
    (h : httpParserParseUrl t false u = .ok u') (hquestion : NoQuestion (queryOf t)) :
    ParsesGet t ↔ (getRequest t).length ≤ httpMaxHeaderSize :=
  (parsesGet_iff hne h).trans (and_iff_right hquestion)

/-- For a path with a query. -/
theorem parsesGet_pathAndQuery : ParsesGet (bytes "/a?x=1") :=
  (parsesGet_of_parseUrl_iff (u := .init) (by decide) rfl (by decide)).mpr (by decide)

/-- A path that does not leave room for the rest of the request. -/
theorem not_parsesGet_path {n : Nat} (hn : httpMaxHeaderSize ≤ n) :
    ¬ ParsesGet (47 :: List.replicate n 97) := by
  obtain ⟨u', h⟩ := exists_parseUrl_path n
  rw [parsesGet_iff (List.cons_ne_nil _ _) h]
  rintro ⟨-, hroom⟩
  rw [getRequest, List.length_append, List.length_append, List.length_cons,
    List.length_replicate] at hroom
  omega

/-- Not every URL that is accepted by itself is the target of a request that is parsed: a slash and
80 KiB of letters are not. -/
theorem not_parsesGet_longPath : ¬ ∀ (t : Bytes) (u u' : HttpParserUrl), t ≠ [] →
    httpParserParseUrl t false u = .ok u' → ParsesGet t := by
  intro hall
  obtain ⟨u', h⟩ := exists_parseUrl_path httpMaxHeaderSize
  exact not_parsesGet_path le_rfl (hall _ _ u' (List.cons_ne_nil _ _) h)

end MosqCluster.Http
