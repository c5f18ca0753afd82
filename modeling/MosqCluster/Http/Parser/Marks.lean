import MosqCluster.Http.Parser.Execute

/-!
# The marks

Between two bytes, the mark of a component may be set only while the parser is in a state of that
component, and it covers bytes of that component only. The transitions keep this except for a few
turns of the request target: on `#` in the path, on `?` at the start of an authority, and on a
space, `#` or `&` in the name of a query, the parser leaves the component and its mark stays set.

## Main definitions

* `openMark` and `heldMark`: the mark that may be, and the one that must be set in a state;
* `targetComponent`: the component of the request target that a byte is in;
* `badTurn`: the turns that leave a mark behind;
* `KeepsMarks`: what a transition does to the marks.

## Main results

* `iteration_keepsMarks`: every iteration of the main loop keeps the marks.
-/

namespace MosqCluster.Http

/-- The mark that may be set while the parser is in a state. -/
def openMark : State → Option SpanKind
  | .bodyIdentity | .bodyIdentityEof | .chunkData | .chunkDataAlmostDone => some .body
  | s => resumeMark s

/-- The mark that is set whenever the parser is in a state: the transition into it has set it. The
cases of the query and the fragment set theirs at each byte. -/
def heldMark : State → Option SpanKind
  | .reqQueryStringStart | .reqQueryString | .reqQueryValueStart | .reqQueryValue
  | .reqFragmentStart | .reqFragment => none
  | s => resumeMark s

/-- The spans that are components of the request target. -/
def SpanKind.ofTarget : SpanKind → Bool
  | .url | .queryField | .queryValue | .fragment => true
  | _ => false

/-- The component of the request target that the byte `ch` is in when the parser reads it in a
state. -/
def targetComponent (s : State) (ch : UInt8) : Option SpanKind :=
  match s with
  | .reqSpacesBeforeUrl | .reqSchema | .reqSchemaSlash | .reqSchemaSlashSlash
  | .reqServerStart | .reqServer | .reqServerWithAt | .reqPath =>
    if ch = ' ' || ch = CR || ch = LF || ch = '?' || ch = '#' then none else some .url
  | .reqQueryStringStart | .reqQueryString =>
    if ch = ' ' || ch = '=' || ch = '#' || ch = '&' then none else some .queryField
  | .reqQueryValueStart | .reqQueryValue =>
    if ch = ' ' || ch = '&' || ch = '#' then none else some .queryValue
  | .reqFragmentStart | .reqFragment => if ch = ' ' then none else some .fragment
  | _ => none

/-- The byte `ch` ends the current component of the request target, whose mark stays set. -/
def badTurn (parser : HttpParser) (ch : UInt8) : Bool :=
  match parser.state with
  | .reqSpacesBeforeUrl => parser.method = .CONNECT && ch = '?'
  | .reqServerStart => ch = '?'
  | .reqPath => ch = '#'
  | .reqQueryStringStart | .reqQueryString => ch = ' ' || ch = '#' || ch = '&'
  | _ => false

/-- Whether the mark `kind` is set after a macro, if it was or was not set before. -/
def Op.markAfter (kind : SpanKind) (o : Bool) : Op → Bool
  | .mark k => o || k = kind
  | .callbackData k _ => o && k ≠ kind
  | _ => o

/-- Whether the mark `kind` is set after the macros of a transition. -/
def markedAfter (kind : SpanKind) (o : Bool) (ops : List Op) : Bool :=
  ops.foldl (Op.markAfter kind) o

/-- What a transition on the byte `ch`, which `tail` follows, does to the marks. -/
structure KeepsMarks (parser : HttpParser) (ch : UInt8) (tail : List UInt8) (t : Transition) :
    Prop where
  /-- A span ends within the buffer. -/
  stop_le : ∀ kind stop, .callbackData kind stop ∈ t.ops → stop ≤ tail.length + 1
  /-- A component of the request target ends where the transition starts. -/
  stop_eq_zero : ∀ kind stop, kind.ofTarget → .callbackData kind stop ∈ t.ops → stop = 0
  /-- The transition stays within the buffer. -/
  extra_le : ∀ extra, t.exit = .next extra → extra ≤ tail.length
  /-- It leaves the error alone if it does not fail. -/
  errno : ∀ extra, t.exit = .next extra → t.parser.httpErrno = parser.httpErrno
  /-- A mark that is set afterwards belongs to the new state, except after a bad turn. -/
  closes : ∀ extra, t.exit = .next extra → ∀ kind,
    (badTurn parser ch = true → kind ≠ .url ∧ kind ≠ .queryField) →
    markedAfter kind (openMark parser.state = some kind) t.ops → openMark t.parser.state = some kind
  /-- The mark that must be set in the new state is set. -/
  held : ∀ extra, t.exit = .next extra → ∀ kind, heldMark t.parser.state = some kind →
    markedAfter kind (heldMark parser.state = some kind) t.ops
  /-- A component whose mark is set afterwards is the one that the byte is in. -/
  component : ∀ extra, t.exit = .next extra → badTurn parser ch = false → ∀ kind, kind.ofTarget →
    markedAfter kind (openMark parser.state = some kind) t.ops →
    targetComponent parser.state ch = some kind ∧ extra = 0

variable {parser parser' : HttpParser} {ch : UInt8} {tail : List UInt8} {ops : List Op}

/-! ## Transitions without marks -/

/-- The macro makes a call that is not about a span. -/
def Op.notify : Op → Bool
  | .mark _ | .callbackData _ _ => false
  | _ => true

/-- A call that is not about a span leaves the marks alone. -/
theorem markedAfter_notify (hops : ∀ op ∈ ops, op.notify) (kind : SpanKind) (o : Bool) :
    markedAfter kind o ops = o := by
  induction ops with
  | nil => rfl
  | cons op ops ih =>
    have hop : op.markAfter kind o = o := by
      have := hops op List.mem_cons_self
      cases op <;> simp_all [Op.notify, Op.markAfter]
    rw [markedAfter, List.foldl_cons, hop]
    exact ih fun op h => hops op (List.mem_cons_of_mem _ h)

/-- A transition that fails some bytes further keeps the marks. -/
theorem KeepsMarks.error {off : Nat} (hops : ∀ kind stop, .callbackData kind stop ∈ ops →
      stop ≤ tail.length + 1 ∧ (kind.ofTarget → stop = 0)) :
    KeepsMarks parser ch tail ⟨parser', ops, .error off⟩ := by
  constructor
  · exact fun kind stop h => (hops kind stop h).1
  · exact fun kind stop hk h => (hops kind stop h).2 hk
  all_goals simp

/-- A failed transition keeps the marks. -/
theorem KeepsMarks.fail {e : HttpErrno}
    (hops : ∀ kind stop, .callbackData kind stop ∈ ops → stop = 0) :
    KeepsMarks parser ch tail (.fail parser' e ops) :=
  .error fun kind stop h => ⟨hops kind stop h ▸ Nat.zero_le _, fun _ => hops kind stop h⟩

/-- A failed assertion keeps the marks. -/
theorem KeepsMarks.abort : KeepsMarks parser ch tail (.abort parser') := by
  constructor <;> simp [Transition.abort]

/-- A transition from a state without a mark to a state without a mark. -/
theorem KeepsMarks.quiet {t : Transition} (hopen : openMark parser.state = none)
    (hops : ∀ op ∈ t.ops, op.notify)
    (hnext : ∀ extra, t.exit = .next extra → extra ≤ tail.length ∧
      t.parser.httpErrno = parser.httpErrno ∧ heldMark t.parser.state = none) :
    KeepsMarks parser ch tail t := by
  have hspan : ∀ kind stop, .callbackData kind stop ∉ t.ops := fun kind stop h => by
    simpa [Op.notify] using hops _ h
  constructor
  · exact fun kind stop h => absurd h (hspan kind stop)
  · exact fun kind stop _ h => absurd h (hspan kind stop)
  · exact fun extra h => (hnext extra h).1
  · exact fun extra h => (hnext extra h).2.1
  · intro extra _ kind _ hmarked
    simp [markedAfter_notify hops, hopen] at hmarked
  · intro extra h kind hheld
    simp [(hnext extra h).2.2] at hheld
  · intro extra _ _ kind _ hmarked
    simp [markedAfter_notify hops, hopen] at hmarked

/-- `break` without marks. -/
theorem KeepsMarks.next (hopen : openMark parser.state = none) (hops : ∀ op ∈ ops, op.notify)
    (herrno : parser'.httpErrno = parser.httpErrno) (hheld : heldMark parser'.state = none) :
    KeepsMarks parser ch tail (.next parser' ops) := by
  refine .quiet hopen hops fun extra h => ?_
  obtain rfl : 0 = extra := by simpa [Transition.next] using h
  exact ⟨Nat.zero_le _, herrno, hheld⟩

/-- Calls that are not about a span may come before a transition. -/
theorem KeepsMarks.reexecute_notify {t : Transition} (h : KeepsMarks parser ch tail t)
    (hops : ∀ op ∈ ops, op.notify) : KeepsMarks parser ch tail (t.reexecute ops) := by
  have hspan : ∀ kind stop, .callbackData kind stop ∈ ops ++ t.ops →
      .callbackData kind stop ∈ t.ops := by
    intro kind stop hmem
    refine (List.mem_append.mp hmem).resolve_left fun hmem => ?_
    simpa [Op.notify] using hops _ hmem
  have hmarked : ∀ kind o, markedAfter kind o (ops ++ t.ops) = markedAfter kind o t.ops := by
    intro kind o
    rw [markedAfter, List.foldl_append]
    exact congrArg (fun o => markedAfter kind o t.ops) (markedAfter_notify hops kind o)
  constructor
  · exact fun kind stop hmem => h.stop_le kind stop (hspan kind stop hmem)
  · exact fun kind stop hk hmem => h.stop_eq_zero kind stop hk (hspan kind stop hmem)
  · exact h.extra_le
  · exact h.errno
  · exact fun extra hextra kind hbad hk => h.closes extra hextra kind hbad (hmarked kind _ ▸ hk)
  · exact fun extra hextra kind hk => (hmarked kind _).trans (h.held extra hextra kind hk)
  · exact fun extra hextra hbad kind hkind hk =>
      h.component extra hextra hbad kind hkind (hmarked kind _ ▸ hk)

/-- A `STRICT_CHECK` keeps the marks. -/
theorem KeepsMarks.strictCheck {cond : Bool} {t : Transition}
    (h : cond = false → KeepsMarks parser ch tail t) :
    KeepsMarks parser ch tail (.strictCheck cond parser' t) := by
  unfold Transition.strictCheck
  split_ifs with hcond
  · exact .fail (by simp)
  · exact h (by simpa using hcond)

/-! ## Transitions with one mark -/

/-- The mark that is held may be set. -/
theorem openMark_of_heldMark {s : State} {kind : SpanKind} (h : heldMark s = some kind) :
    openMark s = some kind := by
  revert h
  cases s <;> simp [heldMark, openMark, resumeMark]

/-- A mark that is set to resume a span may be set. -/
theorem openMark_of_resumeMark {s : State} {kind : SpanKind} (h : resumeMark s = some kind) :
    openMark s = some kind := by
  revert h
  cases s <;> simp [openMark, resumeMark]

/-- Where no mark may be set, none is held. -/
theorem heldMark_of_openMark {s : State} (h : openMark s = none) : heldMark s = none := by
  by_contra hne
  obtain ⟨kind, hkind⟩ := Option.ne_none_iff_exists'.mp hne
  exact absurd (openMark_of_heldMark hkind) (by simp [h])

/-- A transition that ends the span `kind`, perhaps some bytes further. -/
theorem KeepsMarks.ended {kind : SpanKind} {stop extra : Nat}
    (hopen : openMark parser.state = none ∨ openMark parser.state = some kind)
    (hops : ops = [.callbackData kind stop] ∨ ops = [.mark kind, .callbackData kind stop])
    (hkind : kind.ofTarget → stop = 0) (hstop : stop ≤ tail.length + 1)
    (hextra : extra ≤ tail.length)
    (herrno : parser'.httpErrno = parser.httpErrno) (hheld : heldMark parser'.state = none) :
    KeepsMarks parser ch tail ⟨parser', ops, .next extra⟩ := by
  -- No mark is left behind the callback.
  have hmarked : ∀ k, ¬ markedAfter k (openMark parser.state = some k) ops := by
    intro k
    rcases hopen with hopen | hopen <;> rcases hops with rfl | rfl <;>
      simp +contextual [markedAfter, Op.markAfter, hopen]
  have hspan : ∀ k stop', .callbackData k stop' ∈ ops → k = kind ∧ stop' = stop := by
    rcases hops with rfl | rfl <;> simp
  constructor
  · exact fun k stop' h => (hspan k stop' h).2 ▸ hstop
  · intro k stop' hk h
    obtain ⟨rfl, rfl⟩ := hspan k stop' h
    exact hkind hk
  · intro e he
    obtain rfl := Exit.next.inj he
    exact hextra
  · exact fun _ _ => herrno
  · exact fun _ _ k _ h => absurd h (hmarked k)
  · exact fun _ _ k h => by simp [hheld] at h
  · exact fun _ _ _ k _ h => absurd h (hmarked k)

/-- A transition that ends the span `kind` where it starts. -/
theorem KeepsMarks.closed {kind : SpanKind}
    (hopen : openMark parser.state = none ∨ openMark parser.state = some kind)
    (hops : ops = [.callbackData kind 0] ∨ ops = [.mark kind, .callbackData kind 0])
    (herrno : parser'.httpErrno = parser.httpErrno) (hheld : heldMark parser'.state = none) :
    KeepsMarks parser ch tail (.next parser' ops) :=
  .ended hopen hops (fun _ => rfl) (Nat.zero_le _) (Nat.zero_le _) herrno hheld

/-- A transition that stays in the span `kind`, perhaps for some bytes more. -/
theorem KeepsMarks.run {kind : SpanKind} {extra : Nat}
    (hopen : openMark parser.state = none ∨ openMark parser.state = some kind)
    (hops : ops = [.mark kind] ∨ ops = [] ∧ heldMark parser.state = some kind)
    (hextra : extra ≤ tail.length) (herrno : parser'.httpErrno = parser.httpErrno)
    (hopen' : openMark parser'.state = some kind)
    (hcomponent : kind.ofTarget → targetComponent parser.state ch = some kind ∧ extra = 0) :
    KeepsMarks parser ch tail ⟨parser', ops, .next extra⟩ := by
  -- Only the mark of the span may be set.
  have hmarked : ∀ k, markedAfter k (openMark parser.state = some k) ops → k = kind := by
    intro k
    rcases hopen with hopen | hopen <;> rcases hops with rfl | ⟨rfl, -⟩ <;>
      simp +contextual [markedAfter, Op.markAfter, hopen, eq_comm]
  constructor
  · rcases hops with rfl | ⟨rfl, -⟩ <;> simp
  · rcases hops with rfl | ⟨rfl, -⟩ <;> simp
  · intro e he
    obtain rfl := Exit.next.inj he
    exact hextra
  · exact fun _ _ => herrno
  · exact fun _ _ k _ h => hmarked k h ▸ hopen'
  · intro _ _ k h
    obtain rfl : kind = k := Option.some.inj (hopen'.symm.trans (openMark_of_heldMark h))
    rcases hops with rfl | ⟨rfl, hops⟩
    · simp [markedAfter, Op.markAfter]
    · simp [markedAfter, hops]
  · intro e he _ k hk h
    obtain rfl := Exit.next.inj he
    obtain rfl := hmarked k h
    exact hcomponent hk

/-- A transition that stays in the span `kind`. -/
theorem KeepsMarks.inside {kind : SpanKind}
    (hopen : openMark parser.state = none ∨ openMark parser.state = some kind)
    (hops : ops = [.mark kind] ∨ ops = [] ∧ heldMark parser.state = some kind)
    (herrno : parser'.httpErrno = parser.httpErrno) (hopen' : openMark parser'.state = some kind)
    (hcomponent : kind.ofTarget → targetComponent parser.state ch = some kind) :
    KeepsMarks parser ch tail (.next parser' ops) :=
  .run hopen hops (Nat.zero_le _) herrno hopen' fun h => ⟨hcomponent h, rfl⟩

/-- A bad turn, which leaves the mark `kind` behind. -/
theorem KeepsMarks.left {kind : SpanKind} (hbad : badTurn parser ch = true)
    (hkind : kind = .url ∨ kind = .queryField)
    (hopen : openMark parser.state = none ∨ openMark parser.state = some kind)
    (hops : ops = [.mark kind] ∨ ops = [])
    (herrno : parser'.httpErrno = parser.httpErrno) (hheld : heldMark parser'.state = none) :
    KeepsMarks parser ch tail (.next parser' ops) := by
  have hmarked : ∀ k, markedAfter k (openMark parser.state = some k) ops → k = kind := by
    intro k
    rcases hopen with hopen | hopen <;> rcases hops with rfl | rfl <;>
      simp +contextual [markedAfter, Op.markAfter, hopen, eq_comm]
  constructor
  · rcases hops with rfl | rfl <;> simp [Transition.next]
  · rcases hops with rfl | rfl <;> simp [Transition.next]
  · simp [Transition.next]
  · exact fun _ _ => herrno
  · intro _ _ k hk h
    obtain rfl := hmarked k h
    exact absurd hkind (not_or.mpr (hk hbad))
  · exact fun _ _ k h => by simp [Transition.next, hheld] at h
  · exact fun _ _ h => by simp [hbad] at h

/-! ## The request target -/

/-- The states in which the next byte may belong to the URL. -/
def State.inUrl : State → Bool
  | .reqSpacesBeforeUrl | .reqSchema | .reqSchemaSlash | .reqSchemaSlashSlash
  | .reqServerStart | .reqServer | .reqServerWithAt | .reqPath => true
  | _ => false

/-- Where `parse_url_char` leaves the URL: at a question mark that starts the query, or at the `#`
of a path. -/
theorem parseUrlChar_url {s : State} (hs : s.inUrl) (h : parseUrlChar s ch ≠ .dead) :
    openMark (parseUrlChar s ch) = some .url ∧ targetComponent s ch = some .url ∨
      heldMark (parseUrlChar s ch) = none ∧
        (ch = '#' ∧ s = .reqPath ∨
          ch = '?' ∧ (s = .reqPath ∨ s = .reqServerStart ∨ s = .reqServer ∨
            s = .reqServerWithAt)) := by
  rcases eq_or_ne ch '?' with rfl | hquery
  · cases s <;> revert hs h <;> decide
  rcases eq_or_ne ch '#' with rfl | hfragment
  · cases s <;> revert hs h <;> decide
  have hblank : ch ≠ ' ' ∧ ch ≠ CR ∧ ch ≠ LF := by
    refine ⟨?_, ?_, ?_⟩ <;> rintro rfl <;> exact h rfl
  -- no other byte leaves the URL
  revert h
  unfold parseUrlChar parseServerChar
  cases s <;> first
    | exact absurd hs (by decide)
    | (simp only []; split_ifs <;> simp_all [openMark, resumeMark, targetComponent])

/-- `parse_url_char` in the name of a query. -/
theorem parseUrlChar_queryField {s : State} (hs : s = .reqQueryStringStart ∨ s = .reqQueryString)
    (hch : ch ≠ '#') (h : parseUrlChar s ch ≠ .dead) : parseUrlChar s ch = .reqQueryString := by
  revert h
  unfold parseUrlChar
  rcases hs with rfl | rfl <;> simp only [] <;> split_ifs <;> simp_all

/-- `parse_url_char` in the value of a query. -/
theorem parseUrlChar_queryValue {s : State} (hs : s = .reqQueryValueStart ∨ s = .reqQueryValue)
    (hch : ch ≠ '&' ∧ ch ≠ '#') (h : parseUrlChar s ch ≠ .dead) :
    parseUrlChar s ch = .reqQueryValue := by
  revert h
  unfold parseUrlChar
  rcases hs with rfl | rfl <;> simp only [] <;> split_ifs <;> simp_all

/-- `parse_url_char` in the fragment. -/
theorem parseUrlChar_fragment {s : State} (hs : s = .reqFragmentStart ∨ s = .reqFragment)
    (h : parseUrlChar s ch ≠ .dead) :
    parseUrlChar s ch = .reqFragmentStart ∨ parseUrlChar s ch = .reqFragment := by
  revert h
  unfold parseUrlChar
  rcases hs with rfl | rfl <;> simp only [] <;> split_ifs <;> simp_all

/-- The step of the URL automaton either fails or leads to its state. -/
theorem stepUrl_keepsMarks
    (h : ∀ s, s ≠ .dead → parseUrlChar parser'.state ch = s →
      KeepsMarks parser ch tail (.next { parser' with state := s } ops))
    (hops : ∀ kind stop, .callbackData kind stop ∈ ops → stop = 0) :
    KeepsMarks parser ch tail (stepUrl parser' ch ops) := by
  unfold stepUrl
  by_cases hdead : parseUrlChar parser'.state ch = .dead
  · simp only [hdead, if_true]
    exact .fail hops
  · simp only [hdead, if_false]
    exact h _ hdead rfl

/-- The step of the URL automaton within the URL. -/
theorem stepUrl_keepsMarks_url (hs : parser.state.inUrl)
    (hs' : parser'.state = parser.state ∨
      parser.state = .reqSpacesBeforeUrl ∧ parser.method = .CONNECT ∧
        parser'.state = .reqServerStart)
    (hch : ch = '?' → parser.state ≠ .reqPath ∧ parser.state ≠ .reqServer ∧
      parser.state ≠ .reqServerWithAt)
    (herrno : parser'.httpErrno = parser.httpErrno)
    (hops : ops = [.mark .url] ∨ ops = [] ∧ heldMark parser.state = some .url) :
    KeepsMarks parser ch tail (stepUrl parser' ch ops) := by
  have hopen : openMark parser.state = none ∨ openMark parser.state = some .url := by
    revert hs
    cases parser.state <;> decide
  refine stepUrl_keepsMarks (fun s hdead hstep => ?_) ?_
  · -- The new state is in the URL still, or the byte leaves it.
    have hurl := @parseUrlChar_url ch parser'.state ?_ (hstep ▸ hdead)
    · rcases hurl with ⟨hopen', hcomponent⟩ | ⟨hheld, hleft⟩
      · refine .inside hopen hops herrno (hstep ▸ hopen') fun _ => ?_
        rcases hs' with hs' | ⟨hs', -, hs''⟩
        · exact hs' ▸ hcomponent
        · rw [hs''] at hcomponent
          rw [hs']
          exact hcomponent
      · refine .left ?_ (.inl rfl) hopen (hops.imp_right And.left) herrno (hstep ▸ hheld)
        rcases hs' with hs' | ⟨hs', hmethod, hs''⟩
        · rw [hs'] at hleft
          -- What leaves the URL without a callback is a bad turn.
          rcases hleft with ⟨rfl, hpath⟩ | ⟨rfl, hstart⟩
          · simp [badTurn, hpath]
          · have hstart : parser.state = .reqServerStart := by simpa [hch rfl] using hstart
            simp [badTurn, hstart]
        · rcases hleft with ⟨-, hpath⟩ | ⟨rfl, -⟩
          · simp [hs''] at hpath
          · simp [badTurn, hs', hmethod]
    · rcases hs' with hs' | ⟨-, -, hs'⟩
      · exact hs' ▸ hs
      · rw [hs']
        rfl
  · rcases hops with rfl | ⟨rfl, -⟩ <;> simp

/-- Case `s_req_spaces_before_url`. -/
theorem onReqSpacesBeforeUrl_keepsMarks (hs : parser.state = .reqSpacesBeforeUrl) :
    KeepsMarks parser ch tail (onReqSpacesBeforeUrl parser ch) := by
  have hurl : parser.state.inUrl := by rw [hs]; rfl
  unfold onReqSpacesBeforeUrl
  split_ifs with hblank hmethod
  · exact .next (by rw [hs]; rfl) (by simp) rfl (by rw [hs]; rfl)
  · exact stepUrl_keepsMarks_url hurl (.inr ⟨hs, hmethod, rfl⟩) (by simp [hs]) rfl (.inl rfl)
  · exact stepUrl_keepsMarks_url hurl (.inl rfl) (by simp [hs]) rfl (.inl rfl)

/-- Cases `s_req_schema`, `s_req_schema_slash`, `s_req_schema_slash_slash` and
`s_req_server_start`. -/
theorem onReqSchema_keepsMarks (hs : parser.state = .reqSchema ∨ parser.state = .reqSchemaSlash ∨
      parser.state = .reqSchemaSlashSlash ∨ parser.state = .reqServerStart) :
    KeepsMarks parser ch tail (onReqSchema parser ch) := by
  unfold onReqSchema
  split_ifs
  · exact .fail (by simp)
  · refine stepUrl_keepsMarks_url ?_ (.inl rfl) (fun _ => ?_) rfl (.inr ⟨rfl, ?_⟩) <;>
      rcases hs with hs | hs | hs | hs <;> rw [hs] <;> decide

/-- Cases `s_req_server`, `s_req_server_with_at` and `s_req_path`. -/
theorem onReqPath_keepsMarks (hs : parser.state = .reqServer ∨ parser.state = .reqServerWithAt ∨
      parser.state = .reqPath) :
    KeepsMarks parser ch tail (onReqPath parser ch) := by
  have hheld : heldMark parser.state = some .url ∧ openMark parser.state = some .url ∧
      parser.state.inUrl := by
    rcases hs with hs | hs | hs <;> rw [hs] <;> decide
  unfold onReqPath
  split_ifs with hspace hline hcr hquery
  · exact .closed (.inr hheld.2.1) (.inl rfl) rfl rfl
  · exact .closed (.inr hheld.2.1) (.inl rfl) rfl rfl
  · exact .closed (.inr hheld.2.1) (.inl rfl) rfl rfl
  · exact .closed (.inr hheld.2.1) (.inl rfl) rfl rfl
  · exact stepUrl_keepsMarks_url hheld.2.2 (.inl rfl) (fun h => absurd h hquery) rfl
      (.inr ⟨rfl, hheld.1⟩)

/-- Cases `s_req_query_string_start` and `s_req_query_string`: a space, `#` or `&` leaves the mark
behind. -/
theorem onReqQueryString_keepsMarks
    (hs : parser.state = .reqQueryStringStart ∨ parser.state = .reqQueryString) :
    KeepsMarks parser ch tail (onReqQueryString parser ch) := by
  have hopen : openMark parser.state = some .queryField := by
    rcases hs with hs | hs <;> rw [hs] <;> rfl
  have hbad : ch = ' ' ∨ ch = '#' ∨ ch = '&' → badTurn parser ch = true := by
    rcases hs with hs | hs <;> simp [badTurn, hs, or_assoc]
  unfold onReqQueryString
  split_ifs with hspace hequals hfragment
  · exact .left (hbad (.inl hspace)) (.inr rfl) (.inr hopen) (.inl rfl) rfl rfl
  · exact .closed (.inr hopen) (.inr rfl) rfl rfl
  · exact .left (hbad (.inr (.inl hfragment))) (.inr rfl) (.inr hopen) (.inl rfl) rfl rfl
  · refine stepUrl_keepsMarks (fun s hdead hstep => ?_) (by simp)
    obtain rfl : .reqQueryString = s :=
      (parseUrlChar_queryField hs hfragment (hstep ▸ hdead)).symm.trans hstep
    by_cases hand : ch = '&'
    · exact .left (hbad (.inr (.inr hand))) (.inr rfl) (.inr hopen) (.inl rfl) rfl rfl
    · refine .inside (.inr hopen) (.inl rfl) rfl rfl fun _ => ?_
      rcases hs with hs | hs <;> simp [hs, targetComponent, hspace, hequals, hfragment, hand]

/-- Cases `s_req_query_value_start` and `s_req_query_value`. -/
theorem onReqQueryValue_keepsMarks
    (hs : parser.state = .reqQueryValueStart ∨ parser.state = .reqQueryValue) :
    KeepsMarks parser ch tail (onReqQueryValue parser ch) := by
  have hopen : openMark parser.state = some .queryValue := by
    rcases hs with hs | hs <;> rw [hs] <;> rfl
  unfold onReqQueryValue
  simp only
  split_ifs with hspace hand hfragment
  · exact .closed (.inr hopen) (.inr rfl) rfl rfl
  · exact .closed (.inr hopen) (.inr rfl) rfl rfl
  · exact .closed (.inr hopen) (.inr rfl) rfl rfl
  · refine stepUrl_keepsMarks (fun s hdead hstep => ?_) (by simp)
    obtain rfl : .reqQueryValue = s :=
      (parseUrlChar_queryValue hs ⟨hand, hfragment⟩ (hstep ▸ hdead)).symm.trans hstep
    refine .inside (.inr hopen) (.inl rfl) rfl rfl fun _ => ?_
    rcases hs with hs | hs <;> simp [hs, targetComponent, hspace, hfragment, hand]

/-- Cases `s_req_fragment_start` and `s_req_fragment`. -/
theorem onReqFragment_keepsMarks
    (hs : parser.state = .reqFragmentStart ∨ parser.state = .reqFragment) :
    KeepsMarks parser ch tail (onReqFragment parser ch) := by
  have hopen : openMark parser.state = some .fragment := by
    rcases hs with hs | hs <;> rw [hs] <;> rfl
  unfold onReqFragment
  split_ifs with hspace
  · exact .closed (.inr hopen) (.inr rfl) rfl rfl
  · refine stepUrl_keepsMarks (fun s hdead hstep => ?_) (by simp)
    refine .inside (.inr hopen) (.inl rfl) rfl ?_ fun _ => ?_
    · rcases parseUrlChar_fragment hs (hstep ▸ hdead) with h | h <;> rw [← hstep, h] <;> rfl
    · rcases hs with hs | hs <;> simp [hs, targetComponent, hspace]

/-! ## Status lines, header lines and bodies -/

/-- Cases `s_res_status_start` and `s_res_status`. -/
theorem onResStatusStart_keepsMarks (hs : parser.state = .resStatusStart) :
    KeepsMarks parser ch tail (onResStatusStart parser ch) := by
  have hopen : openMark parser.state = none := by rw [hs]; rfl
  unfold onResStatusStart
  split_ifs
  · exact .next hopen (by simp) rfl rfl
  · exact .next hopen (by simp) rfl rfl
  · exact .inside (.inl hopen) (.inl rfl) rfl rfl (by simp [SpanKind.ofTarget])

/-- Case `s_res_status`. -/
theorem onResStatus_keepsMarks (hs : parser.state = .resStatus) :
    KeepsMarks parser ch tail (onResStatus parser ch) := by
  have hheld : heldMark parser.state = some .status ∧ openMark parser.state = some .status := by
    rw [hs]
    decide
  unfold onResStatus
  split_ifs
  · exact .closed (.inr hheld.2) (.inl rfl) rfl rfl
  · exact .closed (.inr hheld.2) (.inl rfl) rfl rfl
  · exact .inside (.inr hheld.2) (.inr ⟨rfl, hheld.1⟩) rfl hheld.2 (by simp [SpanKind.ofTarget])

/-- A transition that ends a span which is no component of the request target, and then goes on as
from a state without a mark. -/
theorem KeepsMarks.reexecute {kind : SpanKind} {stop : Nat} {t : Transition}
    (h : KeepsMarks parser' ch tail t) (hkind : kind.ofTarget = false)
    (hstop : stop ≤ tail.length + 1)
    (hops : ops = [.callbackData kind stop] ∨ ops = [.mark kind, .callbackData kind stop])
    (hopen : openMark parser.state = none ∨ openMark parser.state = some kind)
    (herrno : parser'.httpErrno = parser.httpErrno) (hopen' : openMark parser'.state = none)
    (hcomponent : targetComponent parser'.state ch = none) (hbad : badTurn parser' ch = false) :
    KeepsMarks parser ch tail (t.reexecute ops) := by
  have hspan : ∀ k stop', .callbackData k stop' ∈ ops → k = kind ∧ stop' = stop := by
    rcases hops with rfl | rfl <;> simp
  -- after `ops` no mark is set, as before `t`
  have hclosed : ∀ o : SpanKind → Bool, (∀ k, o k → openMark parser.state = some k) →
      ∀ k, markedAfter k (o k) (ops ++ t.ops) = markedAfter k false t.ops := by
    intro o ho k
    have hk : o k = true → k = kind := by
      intro hk
      rcases hopen with hopen | hopen <;> simpa [hopen, eq_comm] using ho k hk
    have hnone : markedAfter k (o k) ops = false := by
      by_cases hkk : k = kind
      · rcases hops with rfl | rfl <;> simp [markedAfter, Op.markAfter, hkk]
      · have hok : o k = false := by simpa [hkk] using hk
        rcases hops with rfl | rfl <;> simp [markedAfter, Op.markAfter, hok, Ne.symm hkk]
    rw [markedAfter, List.foldl_append]
    exact congrArg (fun o => markedAfter k o t.ops) hnone
  constructor
  · intro k stop' hmem
    rcases List.mem_append.mp hmem with hmem | hmem
    · exact (hspan k stop' hmem).2 ▸ hstop
    · exact h.stop_le k stop' hmem
  · intro k stop' hk hmem
    rcases List.mem_append.mp hmem with hmem | hmem
    · rw [(hspan k stop' hmem).1, hkind] at hk
      cases hk
    · exact h.stop_eq_zero k stop' hk hmem
  · exact h.extra_le
  · exact fun extra hextra => (h.errno extra hextra).trans herrno
  · intro extra hextra k _ hmarked
    rw [Transition.reexecute, hclosed (fun k => openMark parser.state = some k) (by simp)]
      at hmarked
    exact h.closes extra hextra k (by simp [hbad]) (by simpa [hopen'] using hmarked)
  · intro extra hextra k hheld
    have hheld' : heldMark parser'.state = none := heldMark_of_openMark hopen'
    have hmarked := h.held extra hextra k hheld
    rw [Transition.reexecute, hclosed (fun k => heldMark parser.state = some k)]
    · simpa [hheld'] using hmarked
    · exact fun k hk => openMark_of_heldMark (by simpa using hk)
  · intro extra hextra _ k hk hmarked
    rw [Transition.reexecute, hclosed (fun k => openMark parser.state = some k) (by simp)]
      at hmarked
    have := (h.component extra hextra hbad k hk (by simpa [hopen'] using hmarked)).1
    simp [hcomponent] at this

/-- The end of a message leads to a state without a mark. -/
theorem heldMark_newMessage : heldMark (newMessage parser) = none := by
  unfold newMessage startState
  split_ifs <;> rfl

/-- Case `s_message_done`. -/
theorem onMessageDone_keepsMarks {extra : Nat} (hopen : openMark parser.state = none)
    (herrno : parser'.httpErrno = parser.httpErrno) (hextra : extra ≤ tail.length) :
    KeepsMarks parser ch tail (onMessageDone parser' extra) := by
  refine .quiet hopen (by simp [onMessageDone, Op.notify]) fun e he => ?_
  refine ⟨?_, herrno, heldMark_newMessage⟩
  simp only [onMessageDone] at he
  split_ifs at he
  obtain rfl := Exit.next.inj he
  exact hextra

/-- Case `s_headers_done`. -/
theorem onHeadersDone_keepsMarks (hopen : openMark parser.state = none)
    (herrno : parser'.httpErrno = parser.httpErrno) :
    KeepsMarks parser ch tail (onHeadersDone parser' ch) := by
  refine .strictCheck fun _ => ?_
  simp only
  split_ifs
  · exact .quiet hopen (by simp [Op.notify]) (by simp)
  · exact .next hopen (by simp [Op.notify]) herrno heldMark_newMessage
  · exact .next hopen (by simp) herrno rfl
  · exact .next hopen (by simp [Op.notify]) herrno heldMark_newMessage
  · exact .next hopen (by simp) herrno rfl
  · exact .next hopen (by simp [Op.notify]) herrno heldMark_newMessage
  · exact .next hopen (by simp) herrno rfl

/-- Case `s_headers_almost_done`. -/
theorem onHeadersAlmostDone_keepsMarks (hopen : openMark parser.state = none)
    (herrno : parser'.httpErrno = parser.httpErrno) :
    KeepsMarks parser ch tail (onHeadersAlmostDone parser' ch) := by
  refine .strictCheck fun _ => ?_
  split_ifs
  · exact onMessageDone_keepsMarks hopen herrno (Nat.zero_le _)
  · exact .fail (by simp)
  · refine .reexecute_notify (onHeadersDone_keepsMarks hopen herrno) ?_
    simp [Op.notify]

/-- Case `s_header_field_start`. -/
theorem onHeaderFieldStart_keepsMarks (hopen : openMark parser.state = none)
    (herrno : parser'.httpErrno = parser.httpErrno) :
    KeepsMarks parser ch tail (onHeaderFieldStart parser' ch) := by
  unfold onHeaderFieldStart
  split_ifs
  · exact .next hopen (by simp) herrno rfl
  · exact onHeadersAlmostDone_keepsMarks hopen herrno
  · exact .fail (by simp)
  all_goals exact .inside (.inl hopen) (.inl rfl) herrno rfl (by simp [SpanKind.ofTarget])

/-- What the loop of `s_header_field` keeps, and how far it reads. -/
theorem scanHeaderField_spec {count : Nat} {rest : List UInt8} {scan : FieldScan}
    (h : scanHeaderField parser count rest = some scan) :
    scan.parser.state = parser.state ∧ scan.parser.httpErrno = parser.httpErrno ∧
      (scan.stop = none → scan.count = count + rest.length) ∧
      (scan.stop ≠ none → scan.count < count + rest.length) := by
  induction rest generalizing parser count with
  | nil =>
    obtain rfl := Option.some.inj h
    simp
  | cons ch tail ih =>
    rw [scanHeaderField] at h
    split_ifs at h
    · obtain rfl := Option.some.inj h
      simp
    · obtain ⟨parser', hchar, h⟩ := Option.bind_eq_some_iff.mp h
      -- A byte of a name changes neither the state nor the error.
      have hkept : parser'.state = parser.state ∧ parser'.httpErrno = parser.httpErrno := by
        unfold headerFieldChar at hchar
        split at hchar <;> simp [matchName] at hchar <;> (try split_ifs at hchar) <;>
          subst hchar <;> simp
      obtain ⟨hstate, herrno, hnone, hsome⟩ := ih h
      rw [List.length_cons]
      refine ⟨hstate.trans hkept.1, herrno.trans hkept.2, fun hstop => ?_, fun hstop => ?_⟩
      · rw [hnone hstop]
        omega
      · have := hsome hstop
        omega

/-- Case `s_header_field`. -/
theorem onHeaderField_keepsMarks (hs : parser.state = .headerField) :
    KeepsMarks parser ch tail (onHeaderField parser (ch :: tail)) := by
  have hheld : heldMark parser.state = some .headerField ∧
      openMark parser.state = some .headerField := by
    rw [hs]
    decide
  unfold onHeaderField
  split
  case h_1 => exact .abort
  case h_2 scan hscan =>
    obtain ⟨hstate, herrno, hnone, hsome⟩ := scanHeaderField_spec hscan
    rw [List.length_cons, Nat.zero_add] at hnone hsome
    simp only
    split_ifs
    · exact .error (by simp)
    split
    case h_1 hstop =>
      -- The buffer ends within the name.
      refine .run (.inr hheld.2) (.inr ⟨rfl, hheld.1⟩) ?_ herrno ?_ (by simp [SpanKind.ofTarget])
      · rw [hnone hstop, Nat.add_sub_cancel]
      · exact (congrArg openMark hstate).trans hheld.2
    case h_2 stop hstop =>
      -- The name ends at a byte of the buffer.
      have hcount : scan.count ≤ tail.length := by
        have := hsome (by simp [hstop])
        omega
      split_ifs
      · exact .ended (.inr hheld.2) (.inl rfl) (by simp [SpanKind.ofTarget])
          (Nat.le_succ_of_le hcount) hcount herrno rfl
      · exact .error (by simp)

/-- What a result of the loop of `s_header_value` is like: the parser it leaves, and how far it has
read. -/
def ValueScan.Within (errno : HttpErrno) (size : Nat) : ValueScan → Prop
  | .cr scanned _ count | .lf scanned _ count =>
    scanned.state = .headerValue ∧ scanned.httpErrno = errno ∧ count < size
  | .eob scanned _ count =>
    scanned.state = .headerValue ∧ scanned.httpErrno = errno ∧ count = size
  | .error .. | .abort => True

/-- One byte of a header value that does not fail leaves the state and the error alone. -/
def ValueStep.Keeps (errno : HttpErrno) : ValueStep → Prop
  | .next scanned _ _ => scanned.state = .headerValue ∧ scanned.httpErrno = errno
  | .error .. | .abort => True

/-- One byte of the body of the loop of `s_header_value`. -/
theorem headerValueChar_keeps {hState : HeaderState} (hs : parser.state = .headerValue) :
    (headerValueChar parser hState ch tail).Keeps parser.httpErrno := by
  have hcontentLength : (contentLengthChar parser hState ch).Keeps parser.httpErrno := by
    unfold contentLengthChar
    split_ifs <;> simp [ValueStep.Keeps, hs]
  have hconnection : (connectionValueChar parser hState ch).Keeps parser.httpErrno := by
    unfold connectionValueChar
    split_ifs <;> simp [ValueStep.Keeps, hs]
  unfold headerValueChar
  by_cases hinvalid : (!parser.lenientHttpHeaders && !isHeaderChar ch) = true
  · rw [if_pos hinvalid]
    trivial
  rw [if_neg hinvalid]
  cases hState <;> first
    | trivial
    | exact hcontentLength
    | exact hconnection
    | exact ⟨hs, rfl⟩
    | exact ⟨rfl, rfl⟩
    | (simp only []; split_ifs <;> exact ⟨hs, rfl⟩)

/-- What the loop of `s_header_value` keeps, and how far it reads. -/
theorem scanHeaderValue_within {hState : HeaderState} {count skip : Nat} {rest : List UInt8}
    (hs : parser.state = .headerValue) :
    (scanHeaderValue parser hState count skip rest).Within parser.httpErrno
      (count + rest.length) := by
  induction rest generalizing parser hState count skip with
  | nil => exact ⟨hs, rfl, rfl⟩
  | cons ch tail ih =>
    have hcount : count + (ch :: tail).length = count + 1 + tail.length := by
      rw [List.length_cons]
      omega
    rw [hcount]
    cases skip with
    -- A byte that has been skipped.
    | succ skip => exact ih hs
    | zero =>
      rw [scanHeaderValue]
      split_ifs
      · exact ⟨hs, rfl, by omega⟩
      · exact ⟨hs, rfl, by omega⟩
      have hkeeps : (headerValueChar parser hState ch tail).Keeps parser.httpErrno :=
        headerValueChar_keeps hs
      split
      case h_1 parser' hState' skip hchar =>
        obtain ⟨hs', herrno⟩ := hchar ▸ hkeeps
        exact herrno ▸ ih hs'
      case h_2 => trivial
      case h_3 => trivial

/-- Case `s_header_value`. -/
theorem onHeaderValue_keepsMarks (hs : parser.state = .headerValue) :
    KeepsMarks parser ch tail (onHeaderValue parser (ch :: tail)) := by
  have hheld : heldMark parser.state = some .headerValue ∧
      openMark parser.state = some .headerValue := by
    rw [hs]
    decide
  have hscan : (scanHeaderValue parser parser.headerState 0 0 (ch :: tail)).Within parser.httpErrno
      (0 + (tail.length + 1)) := scanHeaderValue_within hs
  unfold onHeaderValue
  split
  -- The value ends at a carriage return, in the first case, or at a line feed.
  case h_1 scanned hState count heq =>
    obtain ⟨-, herrno, hcount⟩ := heq ▸ hscan
    simp only
    split_ifs
    · exact .error (by simp [SpanKind.ofTarget]; omega)
    · exact .ended (.inr hheld.2) (.inl rfl) (by simp [SpanKind.ofTarget]) (by omega) (by omega)
        herrno rfl
  case h_2 scanned hState count heq =>
    obtain ⟨-, herrno, hcount⟩ := heq ▸ hscan
    simp only
    split_ifs
    · exact .error (by simp)
    · exact .ended (.inr hheld.2) (.inl rfl) (by simp [SpanKind.ofTarget]) (by omega) (by omega)
        herrno rfl
  -- The buffer ends within the value.
  case h_3 scanned hState count heq =>
    obtain ⟨hstate, herrno, hcount⟩ := heq ▸ hscan
    simp only
    split_ifs
    · exact .error (by simp)
    · exact .run (.inr hheld.2) (.inr ⟨rfl, hheld.1⟩) (by omega) herrno
        (congrArg openMark hstate) (by simp [SpanKind.ofTarget])
  case h_4 => exact .error (by simp)
  case h_5 => exact .abort

/-- Case `s_header_value_start`. -/
theorem onHeaderValueStart_keepsMarks (hopen : openMark parser.state = none)
    (herrno : parser'.httpErrno = parser.httpErrno) :
    KeepsMarks parser ch tail (onHeaderValueStart parser' ch) := by
  have hinside : ∀ p : HttpParser, p.state = .headerValue → p.httpErrno = parser.httpErrno →
      KeepsMarks parser ch tail (.next p [.mark .headerValue]) := fun p hs herrno =>
    .inside (.inl hopen) (.inl rfl) herrno (by rw [hs]; rfl) (by simp [SpanKind.ofTarget])
  unfold onHeaderValueStart
  simp only
  split
  case h_3 =>
    split_ifs
    · exact .fail (by simp)
    · exact .fail (by simp)
    · exact hinside _ rfl herrno
  all_goals exact hinside _ rfl herrno

/-- Case `s_header_value_discard_ws`. -/
theorem onHeaderValueDiscardWs_keepsMarks (hopen : openMark parser.state = none) :
    KeepsMarks parser ch tail (onHeaderValueDiscardWs parser ch) := by
  unfold onHeaderValueDiscardWs
  split_ifs
  · exact .next hopen (by simp) rfl (heldMark_of_openMark hopen)
  · exact .next hopen (by simp) rfl rfl
  · exact .next hopen (by simp) rfl rfl
  · exact onHeaderValueStart_keepsMarks hopen rfl

/-- A finished header changes the flags only. -/
theorem finishHeader_errno : (finishHeader parser).httpErrno = parser.httpErrno := by
  unfold finishHeader
  split <;> rfl

/-- Case `s_header_value_lws`. -/
theorem onHeaderValueLws_keepsMarks (hopen : openMark parser.state = none) :
    KeepsMarks parser ch tail (onHeaderValueLws parser ch) := by
  unfold onHeaderValueLws
  split_ifs
  · exact onHeaderValueStart_keepsMarks hopen rfl
  · exact onHeaderFieldStart_keepsMarks hopen finishHeader_errno

/-- Case `s_header_value_discard_lws`. -/
theorem onHeaderValueDiscardLws_keepsMarks (hopen : openMark parser.state = none) :
    KeepsMarks parser ch tail (onHeaderValueDiscardLws parser ch) := by
  unfold onHeaderValueDiscardLws
  split_ifs
  · exact .next hopen (by simp) rfl rfl
  · refine .reexecute (onHeaderFieldStart_keepsMarks rfl rfl) ?_ (Nat.zero_le _) (.inr rfl)
      (.inl hopen) finishHeader_errno rfl rfl rfl
    rfl

/-- Case `s_header_almost_done`. -/
theorem onHeaderAlmostDone_keepsMarks (hopen : openMark parser.state = none) :
    KeepsMarks parser ch tail (onHeaderAlmostDone parser ch 0) := by
  unfold onHeaderAlmostDone
  split_ifs
  · exact .error (by simp)
  · exact .next hopen (by simp) rfl rfl

/-- The bytes of a body that are there. -/
theorem toRead_le : toRead parser (ch :: tail) ≤ tail.length + 1 :=
  Nat.min_le_right _ _

/-- Case `s_body_identity`. -/
theorem onBodyIdentity_keepsMarks (hs : parser.state = .bodyIdentity) :
    KeepsMarks parser ch tail (onBodyIdentity parser (ch :: tail)) := by
  have hopen : openMark parser.state = some .body := by rw [hs]; rfl
  have hextra : toRead parser (ch :: tail) - 1 ≤ tail.length := by
    have : toRead parser (ch :: tail) ≤ tail.length + 1 := toRead_le
    omega
  unfold onBodyIdentity
  simp only
  split_ifs
  · exact .abort
  · exact .reexecute (onMessageDone_keepsMarks rfl rfl hextra) rfl toRead_le (.inr rfl) (.inr hopen)
      rfl rfl rfl rfl
  · exact .run (.inr hopen) (.inl rfl) hextra rfl hopen (by simp [SpanKind.ofTarget])

/-- Case `s_body_identity_eof`. -/
theorem onBodyIdentityEof_keepsMarks (hs : parser.state = .bodyIdentityEof) :
    KeepsMarks parser ch tail (onBodyIdentityEof parser (ch :: tail)) := by
  have hopen : openMark parser.state = some .body := by rw [hs]; rfl
  exact .run (.inr hopen) (.inl rfl) (by simp) rfl hopen (by simp [SpanKind.ofTarget])

/-- Case `s_chunk_data`. -/
theorem onChunkData_keepsMarks (hs : parser.state = .chunkData) :
    KeepsMarks parser ch tail (onChunkData parser (ch :: tail)) := by
  have hopen : openMark parser.state = some .body := by rw [hs]; rfl
  have hextra : toRead parser (ch :: tail) - 1 ≤ tail.length := by
    have : toRead parser (ch :: tail) ≤ tail.length + 1 := toRead_le
    omega
  unfold onChunkData
  simp only
  split_ifs
  · exact .abort
  · exact .abort
  · exact .run (.inr hopen) (.inl rfl) hextra rfl rfl (by simp [SpanKind.ofTarget])
  · exact .run (.inr hopen) (.inl rfl) hextra rfl hopen (by simp [SpanKind.ofTarget])

/-- Case `s_chunk_data_almost_done`. -/
theorem onChunkDataAlmostDone_keepsMarks (hs : parser.state = .chunkDataAlmostDone) :
    KeepsMarks parser ch tail (onChunkDataAlmostDone parser ch) := by
  unfold onChunkDataAlmostDone
  split_ifs
  · exact .abort
  · exact .strictCheck fun _ => .closed (.inr (by rw [hs]; rfl)) (.inl rfl) rfl rfl

/-! ## The other cases -/

/-- Case `s_dead`. -/
theorem onDead_keepsMarks (hopen : openMark parser.state = none) :
    KeepsMarks parser ch tail (onDead parser ch) := by
  unfold onDead
  split_ifs
  · exact .next hopen (by simp) rfl (heldMark_of_openMark hopen)
  · exact .fail (by simp)

/-- Case `s_start_req`. -/
theorem onStartReq_keepsMarks (hopen : openMark parser.state = none)
    (hopen' : openMark parser'.state = none) (herrno : parser'.httpErrno = parser.httpErrno) :
    KeepsMarks parser ch tail (onStartReq parser' ch) := by
  unfold onStartReq
  simp only
  split_ifs
  · exact .next hopen (by simp) herrno (heldMark_of_openMark hopen')
  · exact .fail (by simp)
  · split
    · exact .fail (by simp)
    · exact .next hopen (by simp [Op.notify]) herrno rfl

/-- Case `s_start_req_or_res`. -/
theorem onStartReqOrRes_keepsMarks (hopen : openMark parser.state = none) :
    KeepsMarks parser ch tail (onStartReqOrRes parser ch) := by
  unfold onStartReqOrRes
  simp only
  split_ifs
  · exact .next hopen (by simp) rfl (heldMark_of_openMark hopen)
  · exact .next hopen (by simp [Op.notify]) rfl rfl
  · exact onStartReq_keepsMarks hopen rfl rfl

/-- Case `s_res_or_resp_H`. -/
theorem onResOrRespH_keepsMarks (hopen : openMark parser.state = none) :
    KeepsMarks parser ch tail (onResOrRespH parser ch) := by
  unfold onResOrRespH
  split_ifs
  · exact .next hopen (by simp) rfl rfl
  · exact .fail (by simp)
  · exact .next hopen (by simp) rfl rfl

/-- Case `s_start_res`. -/
theorem onStartRes_keepsMarks (hopen : openMark parser.state = none) :
    KeepsMarks parser ch tail (onStartRes parser ch) := by
  unfold onStartRes
  simp only
  split_ifs
  · exact .next hopen (by simp [Op.notify]) rfl rfl
  · exact .next hopen (by simp [Op.notify]) rfl (heldMark_of_openMark hopen)
  · exact .fail (by simp)

/-- Case `s_req_method`. -/
theorem onReqMethod_keepsMarks (hopen : openMark parser.state = none) :
    KeepsMarks parser ch tail (onReqMethod parser ch) := by
  have hheld := heldMark_of_openMark hopen
  unfold onReqMethod
  simp only
  split_ifs
  · exact .fail (by simp)
  · exact .next hopen (by simp) rfl rfl
  · exact .next hopen (by simp) rfl hheld
  · split
    · exact .next hopen (by simp) rfl hheld
    · exact .fail (by simp)
  · exact .next hopen (by simp) rfl hheld
  · exact .fail (by simp)

/-- The cases that expect one character. -/
theorem expect_keepsMarks {c : UInt8} {s : State} (hopen : openMark parser.state = none)
    (hs : heldMark s = none) : KeepsMarks parser ch tail (expect parser ch c s) :=
  .strictCheck fun _ => .next hopen (by simp) rfl hs

/-- The first digit of the major version. -/
theorem onFirstHttpMajor_keepsMarks {least : UInt8} {s : State}
    (hopen : openMark parser.state = none) (hs : heldMark s = none) :
    KeepsMarks parser ch tail (onFirstHttpMajor least parser ch s) := by
  unfold onFirstHttpMajor
  split_ifs
  · exact .fail (by simp)
  · exact .next hopen (by simp) rfl hs

/-- The major version or the dot after it. -/
theorem onHttpMajor_keepsMarks {s : State} (hopen : openMark parser.state = none)
    (hs : heldMark s = none) : KeepsMarks parser ch tail (onHttpMajor parser ch s) := by
  unfold onHttpMajor
  simp only
  split_ifs
  · exact .next hopen (by simp) rfl hs
  · exact .fail (by simp)
  · exact .fail (by simp)
  · exact .next hopen (by simp) rfl (heldMark_of_openMark hopen)

/-- The first digit of the minor version. -/
theorem onFirstHttpMinor_keepsMarks {s : State} (hopen : openMark parser.state = none)
    (hs : heldMark s = none) : KeepsMarks parser ch tail (onFirstHttpMinor parser ch s) := by
  unfold onFirstHttpMinor
  split_ifs
  · exact .fail (by simp)
  · exact .next hopen (by simp) rfl hs

/-- One more digit of the minor version. -/
theorem minorDigit_keepsMarks (hopen : openMark parser.state = none) :
    KeepsMarks parser ch tail (minorDigit parser ch) := by
  unfold minorDigit
  simp only
  split_ifs
  · exact .fail (by simp)
  · exact .fail (by simp)
  · exact .next hopen (by simp) rfl (heldMark_of_openMark hopen)

/-- Case `s_res_http_minor`. -/
theorem onResHttpMinor_keepsMarks (hopen : openMark parser.state = none) :
    KeepsMarks parser ch tail (onResHttpMinor parser ch) := by
  unfold onResHttpMinor
  split_ifs
  · exact .next hopen (by simp) rfl rfl
  · exact minorDigit_keepsMarks hopen

/-- Case `s_req_http_minor`. -/
theorem onReqHttpMinor_keepsMarks (hopen : openMark parser.state = none) :
    KeepsMarks parser ch tail (onReqHttpMinor parser ch) := by
  unfold onReqHttpMinor
  split_ifs
  · exact .next hopen (by simp) rfl rfl
  · exact .next hopen (by simp) rfl rfl
  · exact minorDigit_keepsMarks hopen

/-- Case `s_res_first_status_code`. -/
theorem onResFirstStatusCode_keepsMarks (hopen : openMark parser.state = none) :
    KeepsMarks parser ch tail (onResFirstStatusCode parser ch) := by
  unfold onResFirstStatusCode
  split_ifs
  · exact .next hopen (by simp) rfl (heldMark_of_openMark hopen)
  · exact .fail (by simp)
  · exact .next hopen (by simp) rfl rfl

/-- Case `s_res_status_code`. -/
theorem onResStatusCode_keepsMarks (hopen : openMark parser.state = none) :
    KeepsMarks parser ch tail (onResStatusCode parser ch) := by
  unfold onResStatusCode
  simp only
  split_ifs
  · exact .next hopen (by simp) rfl rfl
  · exact .next hopen (by simp) rfl rfl
  · exact .next hopen (by simp) rfl rfl
  · exact .fail (by simp)
  · exact .fail (by simp)
  · exact .next hopen (by simp) rfl (heldMark_of_openMark hopen)

/-- Case `s_req_http_start`. -/
theorem onReqHttpStart_keepsMarks (hopen : openMark parser.state = none) :
    KeepsMarks parser ch tail (onReqHttpStart parser ch) := by
  unfold onReqHttpStart
  split_ifs
  · exact .next hopen (by simp) rfl rfl
  · exact .next hopen (by simp) rfl (heldMark_of_openMark hopen)
  · exact .fail (by simp)

/-- Case `s_req_line_almost_done`. -/
theorem onReqLineAlmostDone_keepsMarks (hopen : openMark parser.state = none) :
    KeepsMarks parser ch tail (onReqLineAlmostDone parser ch) := by
  unfold onReqLineAlmostDone
  split_ifs
  · exact .fail (by simp)
  · exact .next hopen (by simp) rfl rfl

/-- Case `s_chunk_size_start`. -/
theorem onChunkSizeStart_keepsMarks (hopen : openMark parser.state = none) :
    KeepsMarks parser ch tail (onChunkSizeStart parser ch) := by
  unfold onChunkSizeStart
  split_ifs
  · exact .abort
  · split
    · exact .fail (by simp)
    · exact .next hopen (by simp) rfl rfl

/-- Case `s_chunk_size`. -/
theorem onChunkSize_keepsMarks (hopen : openMark parser.state = none) :
    KeepsMarks parser ch tail (onChunkSize parser ch) := by
  have hheld := heldMark_of_openMark hopen
  unfold onChunkSize
  cases unhex ch with
  | none =>
    simp only
    split_ifs
    · exact .abort
    · exact .next hopen (by simp) rfl rfl
    · exact .next hopen (by simp) rfl rfl
    · exact .fail (by simp)
  | some d =>
    simp only
    split_ifs
    · exact .abort
    · exact .next hopen (by simp) rfl rfl
    · exact .fail (by simp)
    · exact .next hopen (by simp) rfl hheld

/-- Case `s_chunk_parameters`. -/
theorem onChunkParameters_keepsMarks (hopen : openMark parser.state = none) :
    KeepsMarks parser ch tail (onChunkParameters parser ch) := by
  unfold onChunkParameters
  split_ifs
  · exact .abort
  · exact .next hopen (by simp) rfl rfl
  · exact .next hopen (by simp) rfl (heldMark_of_openMark hopen)

/-- Case `s_chunk_size_almost_done`. -/
theorem onChunkSizeAlmostDone_keepsMarks (hopen : openMark parser.state = none) :
    KeepsMarks parser ch tail (onChunkSizeAlmostDone parser ch) := by
  unfold onChunkSizeAlmostDone
  split_ifs
  · exact .abort
  · refine .strictCheck fun _ => ?_
    simp only
    split_ifs
    · exact .next hopen (by simp) rfl rfl
    · exact .next hopen (by simp) rfl rfl

/-- Case `s_chunk_data_done`. -/
theorem onChunkDataDone_keepsMarks (hopen : openMark parser.state = none) :
    KeepsMarks parser ch tail (onChunkDataDone parser ch) := by
  unfold onChunkDataDone
  split_ifs
  · exact .abort
  · exact .strictCheck fun _ => .next hopen (by simp) rfl rfl

/-! ## One iteration -/

/-- Every case of the switch keeps the marks. -/
theorem dispatch_keepsMarks : KeepsMarks parser ch tail (dispatch parser ch tail) := by
  have hnone : ∀ {s}, parser.state = s → openMark s = none → openMark parser.state = none :=
    fun hs h => hs ▸ h
  unfold dispatch
  cases hs : parser.state with
  | dead => exact onDead_keepsMarks (hnone hs rfl)
  | startReqOrRes => exact onStartReqOrRes_keepsMarks (hnone hs rfl)
  | resOrRespH => exact onResOrRespH_keepsMarks (hnone hs rfl)
  | startRes => exact onStartRes_keepsMarks (hnone hs rfl)
  | resH => exact expect_keepsMarks (hnone hs rfl) rfl
  | resHT => exact expect_keepsMarks (hnone hs rfl) rfl
  | resHTT => exact expect_keepsMarks (hnone hs rfl) rfl
  | resHTTP => exact expect_keepsMarks (hnone hs rfl) rfl
  | resFirstHttpMajor => exact onFirstHttpMajor_keepsMarks (hnone hs rfl) rfl
  | resHttpMajor => exact onHttpMajor_keepsMarks (hnone hs rfl) rfl
  | resFirstHttpMinor => exact onFirstHttpMinor_keepsMarks (hnone hs rfl) rfl
  | resHttpMinor => exact onResHttpMinor_keepsMarks (hnone hs rfl)
  | resFirstStatusCode => exact onResFirstStatusCode_keepsMarks (hnone hs rfl)
  | resStatusCode => exact onResStatusCode_keepsMarks (hnone hs rfl)
  | resStatusStart => exact onResStatusStart_keepsMarks hs
  | resStatus => exact onResStatus_keepsMarks hs
  | resLineAlmostDone => exact expect_keepsMarks (hnone hs rfl) rfl
  | startReq => exact onStartReq_keepsMarks (hnone hs rfl) (hnone hs rfl) rfl
  | reqMethod => exact onReqMethod_keepsMarks (hnone hs rfl)
  | reqSpacesBeforeUrl => exact onReqSpacesBeforeUrl_keepsMarks hs
  | reqSchema => exact onReqSchema_keepsMarks (.inl hs)
  | reqSchemaSlash => exact onReqSchema_keepsMarks (.inr (.inl hs))
  | reqSchemaSlashSlash => exact onReqSchema_keepsMarks (.inr (.inr (.inl hs)))
  | reqServerStart => exact onReqSchema_keepsMarks (.inr (.inr (.inr hs)))
  | reqServer => exact onReqPath_keepsMarks (.inl hs)
  | reqServerWithAt => exact onReqPath_keepsMarks (.inr (.inl hs))
  | reqPath => exact onReqPath_keepsMarks (.inr (.inr hs))
  | reqQueryStringStart => exact onReqQueryString_keepsMarks (.inl hs)
  | reqQueryString => exact onReqQueryString_keepsMarks (.inr hs)
  | reqQueryValueStart => exact onReqQueryValue_keepsMarks (.inl hs)
  | reqQueryValue => exact onReqQueryValue_keepsMarks (.inr hs)
  | reqFragmentStart => exact onReqFragment_keepsMarks (.inl hs)
  | reqFragment => exact onReqFragment_keepsMarks (.inr hs)
  | reqHttpStart => exact onReqHttpStart_keepsMarks (hnone hs rfl)
  | reqHttpH => exact expect_keepsMarks (hnone hs rfl) rfl
  | reqHttpHT => exact expect_keepsMarks (hnone hs rfl) rfl
  | reqHttpHTT => exact expect_keepsMarks (hnone hs rfl) rfl
  | reqHttpHTTP => exact expect_keepsMarks (hnone hs rfl) rfl
  | reqFirstHttpMajor => exact onFirstHttpMajor_keepsMarks (hnone hs rfl) rfl
  | reqHttpMajor => exact onHttpMajor_keepsMarks (hnone hs rfl) rfl
  | reqFirstHttpMinor => exact onFirstHttpMinor_keepsMarks (hnone hs rfl) rfl
  | reqHttpMinor => exact onReqHttpMinor_keepsMarks (hnone hs rfl)
  | reqLineAlmostDone => exact onReqLineAlmostDone_keepsMarks (hnone hs rfl)
  | headerFieldStart => exact onHeaderFieldStart_keepsMarks (hnone hs rfl) rfl
  | headerField => exact onHeaderField_keepsMarks hs
  | headerValueDiscardWs => exact onHeaderValueDiscardWs_keepsMarks (hnone hs rfl)
  | headerValueDiscardWsAlmostDone => exact expect_keepsMarks (hnone hs rfl) rfl
  | headerValueDiscardLws => exact onHeaderValueDiscardLws_keepsMarks (hnone hs rfl)
  | headerValueStart => exact onHeaderValueStart_keepsMarks (hnone hs rfl) rfl
  | headerValue => exact onHeaderValue_keepsMarks hs
  | headerValueLws => exact onHeaderValueLws_keepsMarks (hnone hs rfl)
  | headerAlmostDone => exact onHeaderAlmostDone_keepsMarks (hnone hs rfl)
  | chunkSizeStart => exact onChunkSizeStart_keepsMarks (hnone hs rfl)
  | chunkSize => exact onChunkSize_keepsMarks (hnone hs rfl)
  | chunkParameters => exact onChunkParameters_keepsMarks (hnone hs rfl)
  | chunkSizeAlmostDone => exact onChunkSizeAlmostDone_keepsMarks (hnone hs rfl)
  | headersAlmostDone => exact onHeadersAlmostDone_keepsMarks (hnone hs rfl) rfl
  | headersDone => exact onHeadersDone_keepsMarks (hnone hs rfl) rfl
  | chunkData => exact onChunkData_keepsMarks hs
  | chunkDataAlmostDone => exact onChunkDataAlmostDone_keepsMarks hs
  | chunkDataDone => exact onChunkDataDone_keepsMarks (hnone hs rfl)
  | bodyIdentity => exact onBodyIdentity_keepsMarks hs
  | bodyIdentityEof => exact onBodyIdentityEof_keepsMarks hs
  | messageDone => exact onMessageDone_keepsMarks (hnone hs rfl) rfl (Nat.zero_le _)

/-- Every iteration of the main loop keeps the marks. -/
theorem iteration_keepsMarks : KeepsMarks parser ch tail (iteration parser ch tail) := by
  unfold iteration
  split_ifs
  · -- counting a byte of the header is nothing to the marks
    simp only
    split_ifs
    · exact .fail (by simp)
    · have h : KeepsMarks (parser.addNread 1) ch tail (dispatch (parser.addNread 1) ch tail) :=
        dispatch_keepsMarks
      exact ⟨h.stop_le, h.stop_eq_zero, h.extra_le, h.errno, h.closes, h.held, h.component⟩
  · exact dispatch_keepsMarks

end MosqCluster.Http
