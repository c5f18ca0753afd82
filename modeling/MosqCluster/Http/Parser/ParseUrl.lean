import Mathlib.Logic.Function.Basic
import MosqCluster.Http.Parser.Url

/-!
# URLs by themselves

`http_parser_parse_url` of `server/http_parser.cpp`, which runs `parse_url_char` over a whole URL
and notes where its fields are. Offsets and lengths of fields are 16-bit numbers and wrap around in
a longer buffer. The buffer ends with a zero byte, where `strtoul` stops.

## Main definitions

* `httpParserParseUrl`, and `httpParseHost`, which it calls;
* `hostedChar`: the automaton of the URLs whose schema is followed by a host.

## Main results

* `hosted_of_parseUrl`: a URL that is accepted is one of these.
-/

namespace MosqCluster.Http

/-! ## Fields -/

/-- `IS_HEX(c)`. -/
def isHex (c : UInt8) : Bool := isNum c || (97 : UInt8) ≤ lower c && lower c ≤ 102

/-- `IS_HOST_CHAR(c)` in strict mode. -/
def isHostChar (c : UInt8) : Bool := isAlphanum c || c = '.' || c = '-'

/-- `enum http_parser_url_fields`; `UF_MAX` is `none` where it occurs. -/
inductive UrlField
  | schema
  | host
  | port
  | path
  | query
  | fragment
  | userinfo
  deriving DecidableEq, Repr

/-- All of them. -/
def UrlField.all : List UrlField := [.schema, .host, .port, .path, .query, .fragment, .userinfo]

/-- An entry of `field_data`. -/
structure FieldData where
  off : UInt16
  len : UInt16
  deriving DecidableEq, Repr

/-- `struct http_parser_url`. -/
structure HttpParserUrl where
  fieldSet : UrlField → Bool
  port : UInt16
  fieldData : UrlField → FieldData

namespace HttpParserUrl

/-- `http_parser_url_init`. -/
def init : HttpParserUrl := ⟨fun _ => false, 0, fun _ => ⟨0, 0⟩⟩

/-- `u->field_data[uf].off = off`. -/
def setOff (u : HttpParserUrl) (uf : UrlField) (off : Nat) : HttpParserUrl :=
  let data := { u.fieldData uf with off := UInt16.ofNat off }
  { u with fieldData := Function.update u.fieldData uf data }

/-- `u->field_data[uf].len = len`. -/
def setLen (u : HttpParserUrl) (uf : UrlField) (len : UInt16) : HttpParserUrl :=
  let data := { u.fieldData uf with len }
  { u with fieldData := Function.update u.fieldData uf data }

/-- `u->field_data[uf].len++`. -/
def extend (u : HttpParserUrl) (uf : UrlField) : HttpParserUrl :=
  u.setLen uf ((u.fieldData uf).len + 1)

/-- `u->field_set |= (1 << uf)`. -/
def mark (u : HttpParserUrl) (uf : UrlField) : HttpParserUrl :=
  { u with fieldSet := Function.update u.fieldSet uf true }

end HttpParserUrl

/-- How `http_parser_parse_url` fails: it returns `1`, or an assertion fails. -/
inductive UrlFailure
  | invalid
  | abort
  deriving DecidableEq, Repr

/-! ## The host -/

/-- `enum http_host_state`. -/
inductive HostState
  | dead
  | userinfoStart
  | userinfo
  | hostStart
  | v6Start
  | host
  | v6
  | v6End
  | v6ZoneStart
  | v6Zone
  | portStart
  | port
  deriving DecidableEq, Repr

/-- The case `s_http_host_v6_end`, which `s_http_host` falls through to. -/
def hostEndChar (ch : UInt8) : HostState := if ch = ':' then .portStart else .dead

/-- The case `s_http_host_v6_start`, which `s_http_host_v6` falls through to. -/
def v6Char (s : HostState) (ch : UInt8) : HostState :=
  if isHex ch || ch = ':' || ch = '.' then .v6
  else if s = .v6 && ch = '%' then .v6ZoneStart
  else .dead

/-- The case `s_http_host_v6_zone_start`, which `s_http_host_v6_zone` falls through to. -/
def v6ZoneChar (ch : UInt8) : HostState :=
  if isAlphanum ch || ch = '%' || ch = '.' || ch = '-' || ch = '_' || ch = '~' then .v6Zone
  else .dead

/-- `http_parse_host_char`. -/
def httpParseHostChar (s : HostState) (ch : UInt8) : HostState :=
  match s with
  | .userinfo | .userinfoStart =>
    if ch = '@' then .hostStart else if isUserinfoChar ch then .userinfo else .dead
  | .hostStart => if ch = '[' then .v6Start else if isHostChar ch then .host else .dead
  | .host => if isHostChar ch then .host else hostEndChar ch
  | .v6End => hostEndChar ch
  | .v6 => if ch = ']' then .v6End else v6Char s ch
  | .v6Start => v6Char s ch
  | .v6Zone => if ch = ']' then .v6End else v6ZoneChar ch
  | .v6ZoneStart => v6ZoneChar ch
  | .port | .portStart => if isNum ch then .port else .dead
  | .dead => .dead

/-- The variables of the loop of `http_parse_host`. -/
structure HostScan where
  state : HostState
  url : HttpParserUrl
  p : Nat

/-- One turn of the loop of `http_parse_host`. -/
def HostScan.step (scan : HostScan) (ch : UInt8) : Except UrlFailure HostScan :=
  let s := httpParseHostChar scan.state ch
  let u := scan.url
  let entered (uf : UrlField) (u : HttpParserUrl) : HttpParserUrl :=
    (if scan.state = s then u else u.setOff uf scan.p).extend uf
  let reset (uf : UrlField) : HttpParserUrl :=
    if scan.state = s then u else (u.setLen uf 0).mark uf
  let go (u : HttpParserUrl) : Except UrlFailure HostScan := .ok ⟨s, u, scan.p + 1⟩
  match s with
  | .dead => .error .invalid
  | .host | .v6 => go (entered .host u)
  | .v6ZoneStart | .v6Zone => go (u.extend .host)
  | .port => go (entered .port (reset .port))
  | .userinfo => go (entered .userinfo (reset .userinfo))
  | _ => go u

/-- `http_parse_host`. -/
def httpParseHost (buf : Bytes) (u : HttpParserUrl) (foundAt : Bool) :
    Except UrlFailure HttpParserUrl :=
  if !u.fieldSet .host then .error .abort
  else
    let field := u.fieldData .host
    let start : HostScan :=
      ⟨if foundAt then .userinfoStart else .hostStart, u.setLen .host 0, field.off.toNat⟩
    match ((buf.drop field.off.toNat).take field.len.toNat).foldlM HostScan.step start with
    | .error e => .error e
    | .ok scan =>
      match scan.state with
      | .hostStart | .v6Start | .v6 | .v6ZoneStart | .v6Zone | .portStart | .userinfo
      | .userinfoStart => .error .invalid
      | _ => .ok scan.url

/-! ## The URL -/

/-- `strtoul(str, NULL, 10)`. -/
def strtoul (str : Bytes) : Nat :=
  let str := str.dropWhile fun c => c = 32 || (9 ≤ c && c ≤ 13)
  let minus := str.head? = some 45
  let digits := if minus || str.head? = some 43 then str.drop 1 else str
  let value := (digits.takeWhile isNum).foldl (fun v c => v * 10 + (c - 48).toNat) 0
  if 2 ^ 64 ≤ value then 2 ^ 64 - 1 else if minus then (2 ^ 64 - value) % 2 ^ 64 else value

/-- The variables of the loop of `http_parser_parse_url`. -/
structure UrlScan where
  state : State
  url : HttpParserUrl
  oldUf : Option UrlField
  foundAt : Bool
  p : Nat

/-- The field `uf` goes on, or starts at the byte. -/
def UrlScan.enter (scan : UrlScan) (uf : UrlField) : UrlScan :=
  if scan.oldUf = some uf then { scan with url := scan.url.extend uf }
  else
    { scan with
      url := (((scan.url.setOff uf scan.p).setLen uf 1).mark uf)
      oldUf := some uf }

/-- The switch over the new state. -/
def UrlScan.note (scan : UrlScan) : Except UrlFailure UrlScan :=
  match scan.state with
  | .dead => .error .invalid
  | .reqSchemaSlash | .reqSchemaSlashSlash | .reqServerStart | .reqQueryStringStart
  | .reqFragmentStart => .ok scan
  | .reqSchema => .ok (scan.enter .schema)
  | .reqServerWithAt => .ok (UrlScan.enter { scan with foundAt := true } .host)
  | .reqServer => .ok (scan.enter .host)
  | .reqPath => .ok (scan.enter .path)
  | .reqQueryString => .ok (scan.enter .query)
  | .reqFragment => .ok (scan.enter .fragment)
  | _ => .error .abort

/-- One turn of the loop of `http_parser_parse_url`. -/
def UrlScan.step (scan : UrlScan) (ch : UInt8) : Except UrlFailure UrlScan :=
  (UrlScan.note { scan with state := parseUrlChar scan.state ch }).map fun scan =>
    { scan with p := scan.p + 1 }

/-- The loop of `http_parser_parse_url`. -/
def urlLoop (buf : Bytes) (isConnect : Bool) (u : HttpParserUrl) : Except UrlFailure UrlScan :=
  buf.foldlM UrlScan.step
    { state := if isConnect then .reqServerStart else .reqSpacesBeforeUrl
      url := { u with port := 0, fieldSet := fun _ => false }
      oldUf := none
      foundAt := false
      p := 0 }

/-- The end of `http_parser_parse_url`: the fields of a CONNECT request, and the port. -/
def checkPort (buf : Bytes) (isConnect : Bool) (u : HttpParserUrl) :
    Except UrlFailure HttpParserUrl :=
  if isConnect && UrlField.all.any fun uf => u.fieldSet uf ≠ (uf = .host || uf = .port) then
    .error .invalid
  else if u.fieldSet .port then
    let v := strtoul (buf.drop (u.fieldData .port).off.toNat)
    if 0xffff < v then .error .invalid else .ok { u with port := UInt16.ofNat v }
  else .ok u

/-- What `http_parser_parse_url` does behind its loop: a host must be present if there is a
schema. -/
def checkUrl (buf : Bytes) (isConnect : Bool) (scan : UrlScan) : Except UrlFailure HttpParserUrl :=
  let u := scan.url
  if u.fieldSet .schema && !u.fieldSet .host then .error .invalid
  else
    (if u.fieldSet .host then httpParseHost buf u scan.foundAt else .ok u).bind
      (checkPort buf isConnect)

/-- `http_parser_parse_url`, which writes to the record that it is given. -/
def httpParserParseUrl (buf : Bytes) (isConnect : Bool) (u : HttpParserUrl) :
    Except UrlFailure HttpParserUrl :=
  (urlLoop buf isConnect u).bind (checkUrl buf isConnect)

/-! ## URLs that are accepted -/

/-- `parse_url_char`, where a host must follow a schema. -/
def hostedChar (s : State) (ch : UInt8) : State :=
  if s = .reqServerStart && (ch = '/' || ch = '?') then .dead else parseUrlChar s ch

/-- The states before the host, or the path, of a URL. -/
def State.beforeHost : State → Bool
  | .reqSpacesBeforeUrl | .reqSchema | .reqSchemaSlash | .reqSchemaSlashSlash
  | .reqServerStart => true
  | _ => false

/-- The states behind the host of a URL. -/
def State.behindHost : State → Bool
  | .reqPath | .reqQueryStringStart | .reqQueryString | .reqFragmentStart | .reqFragment => true
  | _ => false

/-- The states in which a URL may end. -/
def State.endsUrl : State → Bool
  | .reqServer | .reqServerWithAt => true
  | s => s.behindHost

/-- The field that a state belongs to. -/
def State.field : State → Option UrlField
  | .reqSchema => some .schema
  | .reqServerWithAt | .reqServer => some .host
  | .reqPath => some .path
  | .reqQueryString => some .query
  | .reqFragment => some .fragment
  | _ => none

variable {scan scan' : UrlScan} {s : State} {ch : UInt8} {buf : Bytes} {u u' : HttpParserUrl}

/-- What is left by one step after another. -/
theorem exists_of_bind_eq_ok {ε α β : Type} {x : Except ε α} {f : α → Except ε β} {b : β}
    (h : x.bind f = .ok b) : ∃ a, x = .ok a ∧ f a = .ok b := by
  cases x with
  | error e => cases h
  | ok a => exact ⟨a, rfl, h⟩

/-- The field that goes on has been set. -/
def UrlScan.Consistent (scan : UrlScan) : Prop :=
  ∀ uf, scan.oldUf = some uf → scan.url.fieldSet uf = true

/-- A field that is entered is set, and the others are as they were. -/
theorem UrlScan.Consistent.enter (h : scan.Consistent) (uf : UrlField) :
    (scan.enter uf).Consistent ∧ (scan.enter uf).state = scan.state ∧
      ∀ uf', (scan.enter uf).url.fieldSet uf' = (scan.url.fieldSet uf' || uf = uf') := by
  rw [UrlScan.enter]
  split_ifs with hold
  · -- the field goes on; it has been set before
    refine ⟨h, rfl, fun uf' => ?_⟩
    by_cases heq : uf = uf'
    · subst heq
      simpa [HttpParserUrl.extend, HttpParserUrl.setLen] using h uf hold
    · simp [heq, HttpParserUrl.extend, HttpParserUrl.setLen]
  · -- the field starts here
    have hset : ∀ uf', (((scan.url.setOff uf scan.p).setLen uf 1).mark uf).fieldSet uf' =
        (scan.url.fieldSet uf' || uf = uf') := by
      intro uf'
      by_cases heq : uf = uf'
      · subst heq
        simp [HttpParserUrl.mark]
      · simp [HttpParserUrl.mark, HttpParserUrl.setLen, HttpParserUrl.setOff,
          Function.update_of_ne (Ne.symm heq), heq]
    refine ⟨fun uf' hold' => ?_, rfl, hset⟩
    obtain rfl := Option.some.inj hold'
    simp [hset]

/-- The switch over a state that does not fail enters the field of the state, if it has one. -/
theorem UrlScan.note_cases (hnote : scan.note = .ok scan') :
    (scan.state.endsUrl ∨ scan.state.beforeHost ∧ scan.state ≠ .reqSpacesBeforeUrl) ∧
      (scan.state.field = none ∧ scan' = scan ∨
        ∃ uf b, scan.state.field = some uf ∧
          scan' = UrlScan.enter { scan with foundAt := b } uf) := by
  unfold UrlScan.note at hnote
  split at hnote <;> simp only [Except.ok.injEq, reduceCtorEq] at hnote
  -- the delimiters come first, then one state for each field but the host, which has two
  iterate 5
    next hs => exact ⟨by rw [hs]; decide, .inl ⟨by rw [hs]; rfl, hnote.symm⟩⟩
  · next hs => exact ⟨by rw [hs]; decide, .inr ⟨_, scan.foundAt, by rw [hs]; rfl, hnote.symm⟩⟩
  · next hs => exact ⟨by rw [hs]; decide, .inr ⟨_, true, by rw [hs]; rfl, hnote.symm⟩⟩
  all_goals
    next hs => exact ⟨by rw [hs]; decide, .inr ⟨_, scan.foundAt, by rw [hs]; rfl, hnote.symm⟩⟩

/-- So that field is set, and the others are as they were. -/
theorem UrlScan.Consistent.note (h : scan.Consistent) (hnote : scan.note = .ok scan') :
    scan'.Consistent ∧ scan'.state = scan.state ∧
      ∀ uf, scan'.url.fieldSet uf =
        (scan.url.fieldSet uf || decide (scan.state.field = some uf)) := by
  obtain ⟨-, ⟨hfield, rfl⟩ | ⟨uf, b, hfield, rfl⟩⟩ := note_cases hnote
  · exact ⟨h, rfl, fun uf => by simp [hfield]⟩
  · have hscan : UrlScan.Consistent { scan with foundAt := b } := h
    obtain ⟨hconsistent, hstate, hset⟩ := hscan.enter uf
    refine ⟨hconsistent, hstate, fun uf' => ?_⟩
    rw [hset]
    simp [hfield]

/-- One turn of the loop that does not fail: the automaton has taken the byte, and the field of its
new state is set. -/
theorem UrlScan.Consistent.step (h : scan.Consistent) (hstep : scan.step ch = .ok scan') :
    scan'.Consistent ∧ scan'.state = parseUrlChar scan.state ch ∧
      (scan'.state.endsUrl ∨ scan'.state.beforeHost ∧ scan'.state ≠ .reqSpacesBeforeUrl) ∧
      ∀ uf, scan'.url.fieldSet uf =
        (scan.url.fieldSet uf || decide (scan'.state.field = some uf)) := by
  have hnext : UrlScan.Consistent { scan with state := parseUrlChar scan.state ch } := h
  have hbind : (UrlScan.note { scan with state := parseUrlChar scan.state ch }).bind
      (fun scan => .ok { scan with p := scan.p + 1 }) = .ok scan' := by
    rw [← hstep, UrlScan.step]
    cases UrlScan.note { scan with state := parseUrlChar scan.state ch } <;> rfl
  obtain ⟨scan₁, hnote, hscan⟩ := exists_of_bind_eq_ok hbind
  obtain rfl := Except.ok.inj hscan
  obtain ⟨hconsistent, hstate, hset⟩ := hnext.note hnote
  have hplace := (UrlScan.note_cases hnote).1
  refine ⟨hconsistent, hstate, ?_, fun uf => ?_⟩
  · show scan₁.state.endsUrl ∨ scan₁.state.beforeHost ∧ scan₁.state ≠ .reqSpacesBeforeUrl
    rwa [hstate]
  · show scan₁.url.fieldSet uf = (scan.url.fieldSet uf || decide (scan₁.state.field = some uf))
    rw [hset, hstate]

/-- Before the host the automaton has been before it all along, and starts with a schema. -/
theorem beforeHost_of_parseUrlChar (h : (parseUrlChar s ch).beforeHost) :
    s.beforeHost ∧ (s = .reqSpacesBeforeUrl → parseUrlChar s ch = .reqSchema) := by
  revert h
  unfold parseUrlChar parseServerChar
  cases s <;> simp only [] <;> split_ifs <;> decide

/-- Behind the host it stays there. -/
theorem behindHost_parseUrlChar (hs : s.behindHost) (h : parseUrlChar s ch ≠ .dead) :
    (parseUrlChar s ch).behindHost := by
  revert h hs
  unfold parseUrlChar
  cases s <;> simp only [] <;> split_ifs <;> first | decide | exact fun hs => absurd hs (by decide)

/-- No host is set behind it. -/
theorem field_ne_host (h : s.behindHost ∨ s.beforeHost) : s.field ≠ some .host := by
  revert h
  cases s <;> decide

/-- The loop follows the automaton of hosted URLs, or it has passed by the host. -/
def UrlScan.Tracks (scan : UrlScan) (s : State) : Prop :=
  scan.state = s ∧ (s.beforeHost → scan.url.fieldSet .host = false ∧
      (s = .reqSpacesBeforeUrl ∨ scan.url.fieldSet .schema = true)) ∨
    scan.state.behindHost ∧ scan.url.fieldSet .schema = true ∧ scan.url.fieldSet .host = false

/-- It goes on so. -/
theorem UrlScan.Tracks.step (h : scan.Tracks s) (hc : scan.Consistent)
    (hstep : scan.step ch = .ok scan') : scan'.Tracks (hostedChar s ch) := by
  obtain ⟨-, hstate, hplace, hset⟩ := hc.step hstep
  have hlive : parseUrlChar scan.state ch ≠ .dead := by
    intro hdead
    rw [hstate, hdead] at hplace
    exact absurd hplace (by decide)
  -- fields that are set stay so, and the host is set by the states of the host only
  have hschema : scan.url.fieldSet .schema = true → scan'.url.fieldSet .schema = true := by
    intro h
    rw [hset, h, Bool.true_or]
  have hhost : scan.url.fieldSet .host = false → scan'.state.field ≠ some .host →
      scan'.url.fieldSet .host = false := by
    intro h hne
    rw [hset, h, decide_eq_false hne, Bool.or_false]
  obtain ⟨rfl, hbefore⟩ | ⟨hbehind, hs, hh⟩ := h
  · by_cases hleft : scan.state = .reqServerStart ∧ (ch = '/' ∨ ch = '?')
    · -- the host is left out
      obtain ⟨hstart, hch⟩ := hleft
      obtain ⟨hh, hs⟩ := hbefore (by rw [hstart]; rfl)
      have hbehind : scan'.state.behindHost := by
        rw [hstate, hstart]
        obtain rfl | rfl := hch <;> rfl
      rw [hstart] at hs
      exact .inr ⟨hbehind, hschema (hs.resolve_left (by decide)),
        hhost hh (field_ne_host (.inl hbehind))⟩
    · -- both automata take the same step
      have hhosted : hostedChar scan.state ch = parseUrlChar scan.state ch := by
        rw [hostedChar, if_neg]
        simpa using hleft
      refine .inl ⟨hstate.trans hhosted.symm, fun hnext => ?_⟩
      rw [hhosted] at hnext ⊢
      obtain ⟨hwas, hfirst⟩ := beforeHost_of_parseUrlChar hnext
      obtain ⟨hh, hs⟩ := hbefore hwas
      refine ⟨hhost hh (field_ne_host (.inr (hstate ▸ hnext))), .inr ?_⟩
      rcases hs with hs | hs
      · rw [hset, hstate, hfirst hs]
        exact Bool.or_true _
      · exact hschema hs
  · have hbehind' : scan'.state.behindHost := hstate ▸ behindHost_parseUrlChar hbehind hlive
    exact .inr ⟨hbehind', hschema hs, hhost hh (field_ne_host (.inl hbehind'))⟩

/-- The whole loop does. -/
theorem UrlScan.Tracks.foldlM (h : scan.Tracks s) (hc : scan.Consistent)
    (hloop : buf.foldlM UrlScan.step scan = .ok scan') :
    scan'.Tracks (buf.foldl hostedChar s) ∧
      (buf = [] ∨ scan'.state.endsUrl ∨
        scan'.state.beforeHost ∧ scan'.state ≠ .reqSpacesBeforeUrl) := by
  induction buf generalizing scan s with
  | nil =>
    obtain rfl := Except.ok.inj hloop
    exact ⟨h, .inl rfl⟩
  | cons ch buf ih =>
    rw [List.foldlM_cons] at hloop
    obtain ⟨scan₁, hstep, hrest⟩ := exists_of_bind_eq_ok hloop
    obtain ⟨hc', -, hplace, -⟩ := hc.step hstep
    obtain ⟨htracks, hend⟩ := ih (h.step hc hstep) hc' hrest
    refine ⟨htracks, .inr ?_⟩
    rcases hend with rfl | hend
    · -- the byte is the last one
      obtain rfl := Except.ok.inj hrest
      exact hplace
    · exact hend

/-- A URL that is accepted leads the automaton of hosted URLs to a state in which a URL may end. -/
theorem hosted_of_parseUrl (hne : buf ≠ []) (h : httpParserParseUrl buf false u = .ok u') :
    (buf.foldl hostedChar .reqSpacesBeforeUrl).endsUrl := by
  obtain ⟨scan, hloop, hcheck⟩ := exists_of_bind_eq_ok h
  -- the check behind the loop
  have hok : ¬ (scan.url.fieldSet .schema = true ∧ scan.url.fieldSet .host = false) := by
    rintro ⟨hs, hh⟩
    simp only [checkUrl, hs, hh, Bool.not_false, Bool.and_self, if_true] at hcheck
    cases hcheck
  have hstart : UrlScan.Tracks
      ⟨.reqSpacesBeforeUrl, { u with port := 0, fieldSet := fun _ => false }, none, false, 0⟩
      .reqSpacesBeforeUrl := .inl ⟨rfl, fun _ => ⟨rfl, .inl rfl⟩⟩
  obtain ⟨⟨hstate, hbefore⟩ | ⟨-, hlost⟩, hplace⟩ :=
    hstart.foldlM (fun uf h => by cases h) hloop
  · rw [← hstate] at hbefore ⊢
    rcases hplace with hnil | hend | ⟨hplace, hspaces⟩
    · exact absurd hnil hne
    · exact hend
    · -- before the host, with a schema: the check behind the loop refuses that
      obtain ⟨hh, hs⟩ := hbefore hplace
      exact absurd ⟨hs.resolve_left hspaces, hh⟩ hok
  · exact absurd hlost hok

/-- More of a path. -/
theorem foldlM_step_path (n : Nat) (u : HttpParserUrl) (p : Nat) :
    ∃ scan, (List.replicate n 97).foldlM UrlScan.step ⟨.reqPath, u, some .path, false, p⟩ =
        .ok scan ∧ scan.url.fieldSet = u.fieldSet := by
  induction n generalizing u p with
  | zero => exact ⟨_, rfl, rfl⟩
  | succ n ih =>
    have hstep : UrlScan.step ⟨.reqPath, u, some .path, false, p⟩ 97 =
        .ok ⟨.reqPath, u.extend .path, some .path, false, p + 1⟩ := rfl
    obtain ⟨scan, hloop, hset⟩ := ih (u.extend .path) (p + 1)
    refine ⟨scan, ?_, hset⟩
    rw [List.replicate_succ, List.foldlM_cons, hstep]
    exact hloop

/-- A path is accepted, however long it is. -/
theorem exists_parseUrl_path (n : Nat) :
    ∃ u', httpParserParseUrl (47 :: List.replicate n 97) false .init = .ok u' := by
  have hfirst : UrlScan.step ⟨.reqSpacesBeforeUrl, .init, none, false, 0⟩ 47 =
      .ok ⟨.reqPath, ((HttpParserUrl.init.setOff .path 0).setLen .path 1).mark .path,
        some .path, false, 1⟩ := rfl
  obtain ⟨scan, hloop, hset⟩ := foldlM_step_path n
    (((HttpParserUrl.init.setOff .path 0).setLen .path 1).mark .path) 1
  have hurl : urlLoop (47 :: List.replicate n 97) false .init = .ok scan :=
    (congrArg (· >>= (List.replicate n 97).foldlM UrlScan.step) hfirst).trans hloop
  have hunset : ∀ uf, uf ≠ .path → scan.url.fieldSet uf = false := by
    intro uf hne
    rw [hset]
    exact Function.update_of_ne hne _ _
  refine ⟨scan.url, ?_⟩
  rw [httpParserParseUrl, hurl]
  simp [Except.bind, checkUrl, checkPort, hunset]

end MosqCluster.Http
