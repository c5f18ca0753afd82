import MosqCluster.Http.Parser.Execute

/-!
# What the parser makes of a header line

The parser looks out for five header names. It compares a name with them while it reads it, byte by
byte and in lower case, so that a line is taken for one of them if its name is the whole of it, and
only then. The value of any other line is passed over up to the end of the line, the value of
`Connection` sets flags, and the value of `Content-Length` is read as a number.

## Main definitions

* `watchedNames`: the names that the parser looks out for;
* `NameAt`: what it has found out about a name, when it has read a part of it;
* `HttpParser.core`: what a line like any other leaves in a parser record.

## Main results

* `scanHeaderField_name`: the loop over a name, up to the colon;
* `NameAt.watched` and `NameAt.unwatched`: a name is taken for a watched one if and only if it is
  equal to it in lower case;
* `scanHeaderValue_plain` and `scanHeaderValue_digits`: the loops over a value.
-/

namespace MosqCluster.Http

/-! ## Names -/

/-- A name that the parser looks out for: the header state in which it is matched, and the one in
which it has been matched. -/
structure WatchedName where
  word : String
  matching : HeaderState
  hit : HeaderState
  deriving DecidableEq

/-- All of them. -/
def watchedNames : List WatchedName :=
  [⟨"connection", .matchingConnection, .connection⟩,
    ⟨"proxy-connection", .matchingProxyConnection, .connection⟩,
    ⟨"content-length", .matchingContentLength, .contentLength⟩,
    ⟨"transfer-encoding", .matchingTransferEncoding, .transferEncoding⟩,
    ⟨"upgrade", .matchingUpgrade, .upgrade⟩]

/-- What the parser has found out about a name when it has read `u`, in lower case: the header state
and the index. `connection` and `content-length` have states of their own for what they share. -/
inductive NameAt (u : Bytes) : HeaderState → BitVec 7 → Prop
  | general {i : BitVec 7} (h : ∀ w ∈ watchedNames, ¬ u <+: bytes w.word) : NameAt u .general i
  | c (h : u = bytes "c") : NameAt u .C 0
  | co (h : u = bytes "co") : NameAt u .CO 1
  | con (h : u = bytes "con") : NameAt u .CON 2
  | matching {w : WatchedName} {i : BitVec 7} (hmem : w ∈ watchedNames)
      (hapart : ∀ w' ∈ watchedNames, u <+: bytes w'.word → w' = w) (h : u <+: bytes w.word)
      (hlength : u.length < (bytes w.word).length) (hindex : i.toNat + 1 = u.length) :
      NameAt u w.matching i
  | hit {w : WatchedName} {i : BitVec 7} (hmem : w ∈ watchedNames)
      (hapart : ∀ w' ∈ watchedNames, u <+: bytes w'.word → w' = w) (h : u = bytes w.word) :
      NameAt u w.hit i

variable {u name value more : Bytes} {c ch : UInt8} {parser parser' : HttpParser}
  {s hState : HeaderState} {i : BitVec 7} {count : Nat}

/-- The words are short. -/
theorem length_watchedNames {w : WatchedName} (h : w ∈ watchedNames) :
    (bytes w.word).length < 18 := by
  revert w
  decide

/-- One more letter of a word. -/
theorem append_singleton_prefix_iff {word : Bytes} (h : u <+: word) :
    u ++ [c] <+: word ↔ word[u.length]? = some c := by
  obtain ⟨rest, rfl⟩ := h
  rw [List.prefix_append_right_inj, List.getElem?_append_right (Nat.le_refl _), Nat.sub_self]
  cases rest with
  | nil => simp
  | cons b rest => simp [eq_comm]

/-- One step of the match of a word. -/
theorem matchWord_goes_on {word : String} {miss hit stay : HeaderState}
    (h : u <+: bytes word) (hlength : u.length < (bytes word).length)
    (hindex : (i + 1).toNat = u.length) :
    matchWord word (i + 1) c miss hit stay =
      if u ++ [c] = bytes word then hit
      else if u ++ [c] <+: bytes word then stay
      else miss := by
  have hget : (bytes word).getD u.length 0 = c ↔ u ++ [c] <+: bytes word := by
    rw [append_singleton_prefix_iff h, List.getD_eq_getElem?_getD,
      List.getElem?_eq_getElem hlength, Option.getD_some, Option.some.injEq]
  have hlast : u ++ [c] = bytes word ↔ u ++ [c] <+: bytes word ∧
      u.length = (bytes word).length - 1 := by
    constructor
    · intro heq
      rw [heq, ← heq, List.length_append]
      exact ⟨List.prefix_refl _, by simp⟩
    · rintro ⟨hpre, hlen⟩
      exact hpre.eq_of_length (by rw [List.length_append, List.length_singleton]; omega)
  have hmiss : ((bytes word).length < u.length || c ≠ (bytes word).getD u.length 0) =
      !decide (u ++ [c] <+: bytes word) := by
    simp [Nat.not_lt.mpr hlength.le, ← hget, eq_comm]
  rw [matchWord, hindex, hmiss]
  by_cases hpre : u ++ [c] <+: bytes word <;> simp [hlast, hpre]

/-- The case of a watched name that is being matched. -/
theorem headerFieldChar_matching {w : WatchedName} (hmem : w ∈ watchedNames)
    (hs : parser.headerState = w.matching) (ch c : UInt8) :
    headerFieldChar parser ch c = some (matchName w.word w.hit parser c) := by
  simp only [watchedNames, List.mem_cons, List.not_mem_nil, or_false] at hmem
  rw [headerFieldChar]
  rcases hmem with rfl | rfl | rfl | rfl | rfl <;> rw [hs]

/-- The case of one that has been matched. -/
theorem headerFieldChar_hit {w : WatchedName} (hmem : w ∈ watchedNames)
    (hs : parser.headerState = w.hit) (hch : ch ≠ ' ') (c : UInt8) :
    headerFieldChar parser ch c = some { parser with headerState := .general } := by
  simp only [watchedNames, List.mem_cons, List.not_mem_nil, or_false] at hmem
  rw [headerFieldChar]
  rcases hmem with rfl | rfl | rfl | rfl | rfl <;> rw [hs] <;> simp [hch]

/-- What the first letter of a name says. -/
theorem nameAt_first (c : UInt8) :
    NameAt [c] (if c = 'c' then .C else if c = 'p' then .matchingProxyConnection
      else if c = 't' then .matchingTransferEncoding else if c = 'u' then .matchingUpgrade
      else .general) 0 := by
  split_ifs with hc hp ht hu
  · exact .c (by rw [hc]; decide)
  · subst hp
    exact .matching (w := ⟨"proxy-connection", .matchingProxyConnection, .connection⟩)
      (by decide) (by decide) (by decide) (by decide) rfl
  · subst ht
    exact .matching (w := ⟨"transfer-encoding", .matchingTransferEncoding, .transferEncoding⟩)
      (by decide) (by decide) (by decide) (by decide) rfl
  · subst hu
    exact .matching (w := ⟨"upgrade", .matchingUpgrade, .upgrade⟩)
      (by decide) (by decide) (by decide) (by decide) rfl
  · refine .general fun w hw hpre => ?_
    -- the first letters of the words are these four
    have hhead : ∀ w ∈ watchedNames, ∀ b ∈ (bytes w.word).head?,
        b = 'c' ∨ b = 'p' ∨ b = 't' ∨ b = 'u' := by decide +kernel
    obtain ⟨rest, hrest⟩ := hpre
    have hfirst := hhead w hw c (by rw [← hrest]; rfl)
    simp only [hc, hp, ht, hu, or_self] at hfirst

/-- A part of a name that goes on as no watched name does. -/
theorem NameAt.missed {w : WatchedName}
    (hapart : ∀ w' ∈ watchedNames, u <+: bytes w'.word → w' = w)
    (h : ¬ u ++ [c] <+: bytes w.word) : NameAt (u ++ [c]) .general i := by
  refine .general fun w' hw' hpre => h ?_
  rwa [← hapart w' hw' ((List.prefix_append u [c]).trans hpre)]

/-- One more letter of a name. -/
theorem NameAt.step (h : NameAt u parser.headerState parser.index) (hch : ch ≠ ' ') :
    ∃ s i, headerFieldChar parser ch c = some { parser with headerState := s, index := i } ∧
      NameAt (u ++ [c]) s i := by
  obtain ⟨type, flags, state, s, i, lenient, nread, length, major, minor, status, method, errno,
    upgrade⟩ := parser
  dsimp only at h
  cases h with
  | general h =>
    exact ⟨.general, i, rfl, .general fun w hw hpre =>
      h w hw ((List.prefix_append u [c]).trans hpre)⟩
  | c h =>
    refine ⟨if c = 'o' then .CO else .general, 1, rfl, ?_⟩
    subst h
    split_ifs with ho
    · exact .co (by rw [ho]; decide)
    · refine .general fun w hw => ?_
      revert w
      simp +decide [watchedNames, bytes, ho]
  | co h =>
    refine ⟨if c = 'n' then .CON else .general, 2, rfl, ?_⟩
    subst h
    split_ifs with hn
    · exact .con (by rw [hn]; decide)
    · refine .general fun w hw => ?_
      revert w
      simp +decide [watchedNames, bytes, hn]
  | con h =>
    refine ⟨if c = 'n' then .matchingConnection else if c = 't' then .matchingContentLength
      else .general, 3, rfl, ?_⟩
    subst h
    split_ifs with hn ht
    · subst hn
      exact .matching (w := ⟨"connection", .matchingConnection, .connection⟩)
        (by decide) (by decide) (by decide) (by decide) rfl
    · subst ht
      exact .matching (w := ⟨"content-length", .matchingContentLength, .contentLength⟩)
        (by decide) (by decide) (by decide) (by decide) rfl
    · refine .general fun w hw => ?_
      revert w
      simp +decide [watchedNames, bytes, hn, ht]
  | @matching w _ hmem hapart hpre hlength hindex =>
    have hnext : (i + 1).toNat = u.length := by
      have hshort := length_watchedNames hmem
      have hone : (1 : BitVec 7).toNat = 1 := rfl
      rw [BitVec.toNat_add, hone]
      omega
    refine ⟨_, _, (headerFieldChar_matching hmem rfl ch c).trans (congrArg some rfl), ?_⟩
    rw [matchWord_goes_on hpre hlength hnext]
    have hapart' : ∀ w' ∈ watchedNames, u ++ [c] <+: bytes w'.word → w' = w :=
      fun w' hw' hlonger => hapart w' hw' ((List.prefix_append u [c]).trans hlonger)
    split_ifs with hword hlonger
    · exact .hit hmem hapart' hword
    · refine .matching hmem hapart' hlonger ?_ ?_
      · exact Nat.lt_of_le_of_ne hlonger.length_le fun hlen => hword (hlonger.eq_of_length hlen)
      · rw [hnext, List.length_append, List.length_singleton]
    · exact .missed hapart hlonger
  | @hit w _ hmem hapart heq =>
    refine ⟨.general, i, headerFieldChar_hit hmem rfl hch c, .missed hapart fun hlonger => ?_⟩
    have hlen := hlonger.length_le
    rw [List.length_append, List.length_singleton, heq] at hlen
    omega

/-- The loop over the rest of a name. -/
theorem scanHeaderField_name (parser : HttpParser) (count : Nat) (more : Bytes)
    (h : NameAt u parser.headerState parser.index)
    (hname : ∀ ch ∈ name, token ch ≠ 0) :
    ∃ s i, scanHeaderField parser count (name ++ 58 :: more) =
        some ⟨{ parser with headerState := s, index := i }, count + name.length, some 58⟩ ∧
      NameAt (u ++ name.map token) s i := by
  induction name generalizing parser u count with
  | nil =>
    refine ⟨_, _, rfl, ?_⟩
    rwa [List.map_nil, List.append_nil]
  | cons ch name ih =>
    have hch := hname ch List.mem_cons_self
    have hspace : ch ≠ ' ' := by
      rintro rfl
      exact hch (by decide)
    obtain ⟨s, i, hchar, hat⟩ := h.step hspace (c := token ch)
    obtain ⟨s', i', hscan, hat'⟩ := ih { parser with headerState := s, index := i } (count + 1) hat
      fun ch hmem => hname ch (List.mem_cons_of_mem _ hmem)
    refine ⟨s', i', ?_, ?_⟩
    · rw [List.cons_append, scanHeaderField, if_neg hch, hchar, Option.bind_some, hscan,
        List.length_cons, Nat.add_assoc, Nat.add_comm 1]
    · rwa [List.append_assoc, List.singleton_append, ← List.map_cons] at hat'

/-- A watched name is taken for what it is. -/
theorem NameAt.watched {w : WatchedName} (h : NameAt (bytes w.word) s i) (hmem : w ∈ watchedNames) :
    s = w.hit := by
  have hself := List.prefix_refl (bytes w.word)
  have hlong : 3 < (bytes w.word).length := by
    have hall : ∀ w ∈ watchedNames, 3 < (bytes w.word).length := by decide
    exact hall w hmem
  cases h with
  | general h => exact absurd hself (h w hmem)
  | c h | co h | con h =>
    rw [h] at hlong
    exact absurd hlong (by decide)
  | matching _ hapart _ hlength _ =>
    obtain rfl := hapart w hmem hself
    exact absurd hlength (Nat.lt_irrefl _)
  | hit _ hapart _ => rw [hapart w hmem hself]

/-- The header states in which the value of a line is passed over. -/
def HeaderState.passesOver : HeaderState → Bool
  | .general | .C | .CO | .CON | .matchingConnection | .matchingProxyConnection
  | .matchingContentLength | .matchingTransferEncoding | .matchingUpgrade => true
  | _ => false

/-- A name that is none of the watched ones is not taken for one. -/
theorem NameAt.unwatched (h : NameAt u s i) (hu : ∀ w ∈ watchedNames, u ≠ bytes w.word) :
    s.passesOver = true := by
  have hmatching : ∀ w ∈ watchedNames, w.matching.passesOver = true := by decide
  cases h with
  | general | c | co | con => rfl
  | matching hmem => exact hmatching _ hmem
  | hit hmem _ heq => exact absurd heq (hu _ hmem)

/-! ## Values -/

/-- What the parser keeps of a line like any other: the record, but for what says where it is, and
for what is known about the version and the connection. -/
def HttpParser.core (parser : HttpParser) : HttpParser :=
  { parser with
    state := .dead, headerState := .general, index := 0, nread := 0, httpMajor := 0, httpMinor := 0
    flags := { parser.flags with
      connectionKeepAlive := false, connectionClose := false, connectionUpgrade := false } }

/-- The header states of a value that sets no flags but those of the connection. -/
def HeaderState.ofConnection : HeaderState → Bool
  | .general | .matchingConnectionTokenStart | .matchingConnectionKeepAlive
  | .matchingConnectionClose | .matchingConnectionUpgrade | .matchingConnectionToken
  | .connectionKeepAlive | .connectionClose | .connectionUpgrade => true
  | _ => false

/-- The bytes that a value may have. -/
def isValueByte (ch : UInt8) : Bool := isHeaderChar ch && ch ≠ CR && ch ≠ LF

/-- A step that goes on with the next byte, in a record that is like the one before. -/
def ValueStep.GoesOn (parser : HttpParser) (step : ValueStep) : Prop :=
  ∃ parser' s, step = .next parser' s 0 ∧ s.ofConnection ∧ parser'.core = parser.core ∧
    parser'.nread = parser.nread

/-- A match of a word that may come to the states of a connection only. -/
theorem goesOn_matchValue {word : String} {miss hit stay : HeaderState} (hmiss : miss.ofConnection)
    (hhit : hit.ofConnection) (hstay : stay.ofConnection) (c : UInt8) :
    (matchValue word miss hit parser stay c).GoesOn parser := by
  refine ⟨_, _, rfl, ?_, rfl, rfl⟩
  unfold matchWord
  split_ifs <;> assumption

/-- A byte of the value of a connection. -/
theorem goesOn_headerValueChar (parser : HttpParser) (hs : s.ofConnection) (hne : s ≠ .general)
    (hch : isHeaderChar ch) (tail : Bytes) :
    (headerValueChar parser s ch tail).GoesOn parser := by
  have hgoes : ∀ (parser' : HttpParser) (s : HeaderState), s.ofConnection →
      parser'.core = parser.core → parser'.nread = parser.nread →
        (ValueStep.next parser' s 0).GoesOn parser :=
    fun parser' s hs hcore hnread => ⟨parser', s, rfl, hs, hcore, hnread⟩
  unfold headerValueChar
  rw [if_neg (by simp [hch])]
  cases s with
  | general => exact absurd rfl hne
  | matchingConnectionTokenStart =>
    dsimp only
    split_ifs <;> exact hgoes _ _ rfl rfl rfl
  | matchingConnectionKeepAlive => exact goesOn_matchValue rfl rfl rfl _
  | matchingConnectionClose => exact goesOn_matchValue rfl rfl rfl _
  | matchingConnectionUpgrade => exact goesOn_matchValue rfl rfl rfl _
  | matchingConnectionToken =>
    dsimp only
    split_ifs <;> exact hgoes _ _ rfl rfl rfl
  | connectionKeepAlive | connectionClose | connectionUpgrade =>
    dsimp only
    unfold connectionValueChar
    split_ifs <;> exact hgoes _ _ rfl rfl rfl
  | _ => cases hs

/-- The way to the end of the line. -/
theorem skipToLineEnd_of_value (hvalue : ∀ c ∈ ch :: value, isValueByte c)
    (hlength : value.length + 1 < httpMaxHeaderSize) :
    skipToLineEnd ch (value ++ CR :: more) = value.length := by
  have hends : ∀ c ∈ ch :: value, ¬ (c = CR || c = LF) := by
    intro c hc
    have hbyte := hvalue c hc
    simp only [isValueByte, Bool.and_eq_true, decide_eq_true_eq] at hbyte
    simp [hbyte]
  have htake : (ch :: (value ++ CR :: more)).take httpMaxHeaderSize =
      (ch :: value) ++ (CR :: more).take (httpMaxHeaderSize - (value.length + 1)) := by
    rw [← List.cons_append, List.take_append, List.take_of_length_le (by simpa using hlength.le),
      List.length_cons]
  obtain ⟨n, hn⟩ := Nat.exists_eq_succ_of_ne_zero (Nat.sub_ne_zero_of_lt hlength)
  have hfind : ((ch :: value) ++ CR :: more.take n).findIdx? (fun b => b = CR || b = LF) =
      some (value.length + 1) := by
    have hend : (CR :: more.take n).findIdx? (fun b => b = CR || b = LF) = some 0 := rfl
    rw [List.findIdx?_append, List.findIdx?_eq_none_iff.mpr (by simpa using hends), hend]
    simp
  rw [skipToLineEnd, htake, hn, List.take_succ_cons, hfind]
  rfl

/-- Bytes that are passed over. -/
theorem scanHeaderValue_skip (value : Bytes) :
    scanHeaderValue parser s count value.length (value ++ more) =
      scanHeaderValue parser s (count + value.length) 0 more := by
  induction value generalizing count with
  | nil => rfl
  | cons ch value ih =>
    rw [List.length_cons, List.cons_append, scanHeaderValue, ih, Nat.add_assoc, Nat.add_comm 1]

/-- The loop over the value of a line like any other, or of a connection. -/
theorem scanHeaderValue_plain (parser : HttpParser) (count : Nat) (more : Bytes)
    (hs : s.ofConnection) (hvalue : ∀ ch ∈ value, isValueByte ch)
    (hlength : value.length < httpMaxHeaderSize) :
    ∃ parser' s', scanHeaderValue parser s count 0 (value ++ CR :: more) =
        .cr parser' s' (count + value.length) ∧ s'.ofConnection ∧ parser'.core = parser.core ∧
      parser'.nread = parser.nread := by
  induction value generalizing parser s count with
  | nil => exact ⟨parser, s, rfl, hs, rfl, rfl⟩
  | cons ch value ih =>
    have hch := hvalue ch List.mem_cons_self
    simp only [isValueByte, Bool.and_eq_true, decide_eq_true_eq] at hch
    rw [List.length_cons] at hlength
    rw [List.cons_append, scanHeaderValue, if_neg hch.1.2, if_neg hch.2]
    by_cases hgeneral : s = .general
    · -- the rest of the line is passed over
      have hskip : headerValueChar parser s ch (value ++ CR :: more) =
          .next parser s value.length := by
        unfold headerValueChar
        rw [if_neg (by simp [hch.1.1]), hgeneral]
        dsimp only
        rw [skipToLineEnd_of_value hvalue hlength]
      simp only [hskip, scanHeaderValue_skip, List.length_cons]
      refine ⟨parser, s, ?_, hs, rfl, rfl⟩
      rw [scanHeaderValue, if_pos rfl, Nat.add_assoc, Nat.add_comm 1]
    · obtain ⟨parser', s', hstep, hs', hcore, hnread⟩ :=
        goesOn_headerValueChar parser hs hgeneral hch.1.1 (value ++ CR :: more)
      obtain ⟨parser'', s'', hscan, hs'', hcore', hnread'⟩ :=
        ih parser' (count + 1) hs' (fun c hc => hvalue c (List.mem_cons_of_mem _ hc)) (by omega)
      refine ⟨parser'', s'', ?_, hs'', hcore'.trans hcore, hnread'.trans hnread⟩
      rw [hstep]
      dsimp only
      rw [hscan, List.length_cons, Nat.add_assoc, Nat.add_comm 1]

/-- The number that digits stand for, behind the digits of `n`. -/
def readDecimal (n : Nat) (digits : Bytes) : Nat :=
  digits.foldl (fun n c => n * 10 + (c - 48).toNat) n

/-- The largest number that the parser is sure to read. -/
def maxContentLength : Nat := 2 ^ 64 - 16

/-- More digits make a number larger. -/
theorem le_readDecimal (n : Nat) (digits : Bytes) : n ≤ readDecimal n digits := by
  induction digits generalizing n with
  | nil => exact Nat.le_refl n
  | cons c digits ih => exact le_trans (by omega) (ih (n * 10 + (c - 48).toNat))

/-- The loop over the rest of a content length. -/
theorem scanHeaderValue_digits {n : Nat} (parser : HttpParser) (count : Nat) (more : Bytes)
    (hdigits : ∀ ch ∈ value, isNum ch)
    (hfits : readDecimal n value ≤ maxContentLength) (hn : parser.contentLength = .ofNat n) :
    scanHeaderValue parser .contentLength count 0 (value ++ CR :: more) =
      .cr { parser with contentLength := .ofNat (readDecimal n value) } .contentLength
        (count + value.length) := by
  induction value generalizing parser count n with
  | nil =>
    rw [readDecimal, List.foldl_nil, ← hn]
    rfl
  | cons ch value ih =>
    have hnum := hdigits ch List.mem_cons_self
    have hbyte : isHeaderChar ch ∧ ch ≠ CR ∧ ch ≠ LF ∧ ch ≠ ' ' := by
      have hall : ∀ n < 256, isNum (.ofNat n) → isHeaderChar (.ofNat n) ∧
          (.ofNat n : UInt8) ≠ CR ∧ (.ofNat n : UInt8) ≠ LF ∧ (.ofNat n : UInt8) ≠ ' ' := by
        decide +kernel
      have := hall ch.toNat ch.toNat_lt
      rw [UInt8.ofNat_toNat] at this
      exact this hnum
    have hlarge := le_readDecimal (n * 10 + (ch - 48).toNat) value
    have hread : readDecimal n (ch :: value) = readDecimal (n * 10 + (ch - 48).toNat) value := rfl
    rw [hread] at hfits ⊢
    have hroom : n * 10 + (ch - 48).toNat ≤ maxContentLength := hlarge.trans hfits
    have hmax : maxContentLength = 2 ^ 64 - 16 := rfl
    have hsmall : ¬ (ullongMax - 10) / 10 < parser.contentLength := by
      rw [hn, UInt64.lt_iff_toNat_lt, UInt64.toNat_ofNat',
        show ((ullongMax - 10) / 10).toNat = 1844674407370955160 from rfl]
      omega
    have hnext : parser.contentLength * 10 + (ch - 48).toUInt64 =
        .ofNat (n * 10 + (ch - 48).toNat) := by
      rw [hn]
      apply UInt64.toNat_inj.mp
      have h10 : (10 : UInt64).toNat = 10 := rfl
      simp only [UInt64.toNat_add, UInt64.toNat_mul, UInt64.toNat_ofNat', UInt8.toNat_toUInt64, h10]
      omega
    have hstep : headerValueChar parser .contentLength ch (value ++ CR :: more) =
        .next { parser with contentLength := .ofNat (n * 10 + (ch - 48).toNat) } .contentLength
          0 := by
      unfold headerValueChar
      rw [if_neg (by simp [hbyte.1])]
      dsimp only
      rw [contentLengthChar, if_neg hbyte.2.2.2, if_neg (by simp [hnum]), if_neg hsmall, hnext]
    rw [List.cons_append, scanHeaderValue, if_neg hbyte.2.1, if_neg hbyte.2.2.1, hstep]
    dsimp only
    rw [ih { parser with contentLength := .ofNat (n * 10 + (ch - 48).toNat) } (count + 0 + 1)
      (fun c hc => hdigits c (List.mem_cons_of_mem _ hc)) hfits rfl, List.length_cons,
      Nat.add_zero, Nat.add_assoc, Nat.add_comm 1]

end MosqCluster.Http
