import MosqCluster.Helper.Json

/-!
# Reading JSON

`Json::Reader` of `helper/jsoncpp`, with its default features, as `JsonDocument::Parse` uses it: a
root that is no array or object is accepted, and so are comments, whose texts are not collected
here. The text is kept as what remains of it, which takes the place of `current_`; behind its end a
zero byte is read.

An object keeps what was read before an error, and nothing behind a value is looked at: a text goes
on as it likes after its root. The loops over the members of an object and the elements of an array
are given fuel, which lasts. The messages of the errors are left out, since `JsonDocument` does not
ask for them. How a number is read that is no integer is a parameter.

`stackDepth_g` is a variable of the process, which every call of `parse` sets to 0. It counts the
values that are read inside each other as long as no other thread reads a text at the same time,
which is taken for granted here.

## Main definitions

* `Json.readToken`, `Json.skipCommentTokens` and `Json.recoverFromError`: the tokens of a text;
* `Json.decodeNumber` and `Json.decodeString`: what a token stands for;
* `Json.readObject`, `Json.readArray` and `Json.readValue`;
* `Json.parse`, and the reader `Json.Reader.jsonCpp` that it makes;
* `Json.ReadsFrom`: what may come of a text.

## Main results

* `Json.readValue_readsFrom`: what remains of a text, and what an exception says about it;
* `Json.parse_ends`: every text is read to an end, or to an exception that it gives cause to.
-/

namespace MosqCluster.Json

/-! ## Tokens -/

/-- `Reader::TokenType`. -/
inductive TokenType where
  | endOfStream
  | objectBegin
  | objectEnd
  | arrayBegin
  | arrayEnd
  | string
  | number
  | true
  | false
  | null
  | arraySeparator
  | memberSeparator
  | comment
  | error
  deriving DecidableEq

/-- `Reader::Token`: its type and its text. -/
structure Token where
  type : TokenType
  text : Bytes

/-- `skipSpaces`. -/
def skipSpaces (text : Bytes) : Bytes :=
  text.dropWhile fun c => c = 32 || c = 9 || c = 13 || c = 10

/-- `match`. -/
def matchPattern (pattern text : Bytes) : Bool × Bytes :=
  if text.take pattern.length = pattern then (true, text.drop pattern.length) else (false, text)

/-- `readCStyleComment`. -/
def readCStyleComment : Bytes → Bool × Bytes
  | [] => (false, [])
  | c :: rest => if c = 42 ∧ rest.head? = some 47 then (true, rest.tail) else readCStyleComment rest

/-- `readCppStyleComment`. -/
def readCppStyleComment : Bytes → Bytes
  | [] => []
  | c :: rest =>
    if c = 10 then rest
    else if c = 13 then if rest.head? = some 10 then rest.tail else rest
    else readCppStyleComment rest

/-- `readComment`, behind the first `/`. -/
def readComment : Bytes → Bool × Bytes
  | [] => (false, [])
  | c :: rest =>
    if c = 42 then readCStyleComment rest
    else if c = 47 then (true, readCppStyleComment rest)
    else (false, rest)

/-- `c >= '0' && c <= '9'`. -/
def isDigit (c : UInt8) : Bool := 48 ≤ c && c ≤ 57

/-- The loop of `readNumber` over digits. -/
def readDigits (text : Bytes) : Bytes := text.dropWhile isDigit

/-- The fractional part of `readNumber`. -/
def readFractionalPart (text : Bytes) : Bytes :=
  if text.head? = some 46 then readDigits text.tail else text

/-- The exponential part of `readNumber`. -/
def readExponentialPart (text : Bytes) : Bytes :=
  if text.head? = some 101 ∨ text.head? = some 69 then
    let text := text.tail
    readDigits (if text.head? = some 43 ∨ text.head? = some 45 then text.tail else text)
  else text

/-- `readNumber`, behind the first character. -/
def readNumber (text : Bytes) : Bytes := readExponentialPart (readFractionalPart (readDigits text))

/-- `readString`, behind the first quotation mark. -/
def readString : Bytes → Bool × Bytes
  | [] => (false, [])
  | c :: rest =>
    if c = 92 then
      match rest with
      | [] => (false, [])
      | _ :: rest => readString rest
    else if c = 34 then (true, rest)
    else readString rest

/-- A token that `ok` may turn into an error. -/
def tokenOrError (type : TokenType) (r : Bool × Bytes) : TokenType × Bytes :=
  (if r.1 then type else .error, r.2)

/-- The switch of `readToken` over the first character of a token: its type, and what remains. -/
def readTokenType (c : UInt8) (rest : Bytes) : TokenType × Bytes :=
  if c = 123 then (.objectBegin, rest)
  else if c = 125 then (.objectEnd, rest)
  else if c = 91 then (.arrayBegin, rest)
  else if c = 93 then (.arrayEnd, rest)
  else if c = 34 then tokenOrError .string (readString rest)
  else if c = 47 then tokenOrError .comment (readComment rest)
  else if isDigit c || c = 45 then (.number, readNumber rest)
  else if c = 116 then tokenOrError .true (matchPattern (bytes "rue") rest)
  else if c = 102 then tokenOrError .false (matchPattern (bytes "alse") rest)
  else if c = 110 then tokenOrError .null (matchPattern (bytes "ull") rest)
  else if c = 44 then (.arraySeparator, rest)
  else if c = 58 then (.memberSeparator, rest)
  else if c = 0 then (.endOfStream, rest)
  else (.error, rest)

/-- `readToken`. -/
def readToken (text : Bytes) : Token × Bytes :=
  match skipSpaces text with
  | [] => (⟨.endOfStream, []⟩, [])
  | c :: rest =>
    let (type, remaining) := readTokenType c rest
    (⟨type, (c :: rest).take (rest.length + 1 - remaining.length)⟩, remaining)

/-! What remains of a text is the end of it. -/

section Suffix

variable {text : Bytes}

theorem skipSpaces_suffix (text : Bytes) : skipSpaces text <:+ text := List.dropWhile_suffix _

theorem matchPattern_suffix (pattern text : Bytes) : (matchPattern pattern text).2 <:+ text := by
  unfold matchPattern
  split
  · exact List.drop_suffix _ _
  · exact List.suffix_refl _

theorem readCStyleComment_suffix (text : Bytes) : (readCStyleComment text).2 <:+ text := by
  fun_induction readCStyleComment text with
  | case1 => exact List.suffix_refl _
  | case2 c rest h => exact (List.tail_suffix _).trans (List.suffix_cons _ _)
  | case3 c rest h ih => exact ih.trans (List.suffix_cons _ _)

theorem readCppStyleComment_suffix (text : Bytes) : readCppStyleComment text <:+ text := by
  fun_induction readCppStyleComment text with
  | case1 => exact List.suffix_refl _
  | case2 rest => exact List.suffix_cons _ _
  | case3 rest hne hhead => exact (List.tail_suffix _).trans (List.suffix_cons _ _)
  | case4 rest hne hhead => exact List.suffix_cons _ _
  | case5 c rest hne hne' ih => exact ih.trans (List.suffix_cons _ _)

theorem readComment_suffix (text : Bytes) : (readComment text).2 <:+ text := by
  fun_cases readComment text with
  | case1 => exact List.suffix_refl _
  | case2 rest => exact (readCStyleComment_suffix rest).trans (List.suffix_cons _ _)
  | case3 rest => exact (readCppStyleComment_suffix rest).trans (List.suffix_cons _ _)
  | case4 c rest => exact List.suffix_cons _ _

theorem readDigits_suffix (text : Bytes) : readDigits text <:+ text := List.dropWhile_suffix _

theorem readNumber_suffix (text : Bytes) : readNumber text <:+ text := by
  have hfraction : ∀ text, readFractionalPart text <:+ text := by
    intro text
    unfold readFractionalPart
    split
    · exact (readDigits_suffix _).trans (List.tail_suffix _)
    · exact List.suffix_refl _
  have hexponent : ∀ text, readExponentialPart text <:+ text := by
    intro text
    unfold readExponentialPart
    split
    · refine (readDigits_suffix _).trans ?_
      split
      · exact (List.tail_suffix _).trans (List.tail_suffix _)
      · exact List.tail_suffix _
    · exact List.suffix_refl _
  exact (hexponent _).trans ((hfraction _).trans (readDigits_suffix _))

theorem readString_suffix (text : Bytes) : (readString text).2 <:+ text := by
  fun_induction readString text with
  | case1 => exact List.suffix_refl _
  | case2 => exact List.nil_suffix
  | case3 c rest ih => exact ih.trans ((List.suffix_cons _ _).trans (List.suffix_cons _ _))
  | case4 => exact List.suffix_cons _ _
  | case5 c rest hne hne' ih => exact ih.trans (List.suffix_cons _ _)

theorem readTokenType_suffix (c : UInt8) (rest : Bytes) : (readTokenType c rest).2 <:+ rest := by
  fun_cases readTokenType c rest
  all_goals first
    | exact List.suffix_refl _
    | exact readString_suffix rest
    | exact readComment_suffix rest
    | exact readNumber_suffix rest
    | exact matchPattern_suffix _ rest

theorem readToken_suffix (text : Bytes) : (readToken text).2 <:+ text := by
  unfold readToken
  split
  · exact List.nil_suffix
  · next c rest heq =>
    have hskip := heq ▸ skipSpaces_suffix text
    exact (readTokenType_suffix c rest).trans ((List.suffix_cons _ _).trans hskip)

/-- Only at the end is nothing read. -/
theorem length_readToken_lt (h : (readToken text).1.type ≠ .endOfStream) :
    (readToken text).2.length < text.length := by
  unfold readToken at h ⊢
  split
  · next heq => simp [heq] at h
  · next c rest heq =>
    have hskip := (heq ▸ skipSpaces_suffix text : c :: rest <:+ text).length_le
    have hrest := (readTokenType_suffix c rest).length_le
    rw [List.length_cons] at hskip
    exact hrest.trans_lt hskip

end Suffix

/-- `skipCommentTokens`. -/
def skipCommentTokens (text : Bytes) : Token × Bytes :=
  if _ : (readToken text).1.type = .comment then skipCommentTokens (readToken text).2
  else readToken text
termination_by text.length
decreasing_by exact length_readToken_lt fun h => by simp_all

/-- `recoverFromError`: what remains behind the next token of a type. -/
def recoverFromError (skipUntilToken : TokenType) (text : Bytes) : Bytes :=
  if _ : (readToken text).1.type = skipUntilToken ∨ (readToken text).1.type = .endOfStream then
    (readToken text).2
  else recoverFromError skipUntilToken (readToken text).2
termination_by text.length
decreasing_by exact length_readToken_lt fun h => by simp_all

theorem skipCommentTokens_suffix (text : Bytes) : (skipCommentTokens text).2 <:+ text := by
  fun_induction skipCommentTokens text with
  | case1 text h ih => exact ih.trans (readToken_suffix text)
  | case2 text h => exact readToken_suffix text

theorem recoverFromError_suffix (type : TokenType) (text : Bytes) :
    recoverFromError type text <:+ text := by
  fun_induction recoverFromError type text with
  | case1 text h => exact readToken_suffix text
  | case2 text h ih => exact ih.trans (readToken_suffix text)

/-! ## What a token stands for -/

/-- `codePointToUTF8`. -/
def codePointToUTF8 (cp : Nat) : Bytes :=
  let cont (shift : Nat) : UInt8 := .ofNat (0x80 ||| (0x3f &&& (cp >>> shift)))
  if cp ≤ 0x7f then [.ofNat cp]
  else if cp ≤ 0x7ff then [.ofNat (0xc0 ||| (0x1f &&& (cp >>> 6))), cont 0]
  else if cp ≤ 0xffff then [.ofNat (0xe0 ||| (0xf &&& (cp >>> 12))), cont 6, cont 0]
  else if cp ≤ 0x10ffff then
    [.ofNat (0xf0 ||| (0x7 &&& (cp >>> 18))), cont 12, cont 6, cont 0]
  else []

/-- A digit of `decodeUnicodeEscapeSequence`. -/
def unicodeDigit (c : UInt8) : Option Nat :=
  if 48 ≤ c && c ≤ 57 then some (c.toNat - 48)
  else if 97 ≤ c && c ≤ 102 then some (c.toNat - 97 + 10)
  else if 65 ≤ c && c ≤ 70 then some (c.toNat - 65 + 10)
  else none

/-- `decodeUnicodeEscapeSequence`: a number of four digits, and what remains. -/
def decodeUnicodeEscapeSequence : Bytes → Option (Nat × Bytes)
  | c₀ :: c₁ :: c₂ :: c₃ :: rest => do
    let unicode ← [c₀, c₁, c₂, c₃].foldlM (fun unicode c => do
      return unicode * 16 + (← unicodeDigit c)) 0
    return (unicode, rest)
  | _ => none

/-- `decodeUnicodeCodePoint`: the second half of a surrogate pair may be any number. -/
def decodeUnicodeCodePoint (text : Bytes) : Option (Nat × Bytes) :=
  match decodeUnicodeEscapeSequence text with
  | none => none
  | some (unicode, rest) =>
    if 0xd800 ≤ unicode ∧ unicode ≤ 0xdbff then
      match rest with
      | 92 :: 117 :: rest =>
        match decodeUnicodeEscapeSequence rest with
        | none => none
        | some (surrogatePair, rest) =>
          some (0x10000 + ((unicode &&& 0x3ff) <<< 10) + (surrogatePair &&& 0x3ff), rest)
      | _ => none
    else some (unicode, rest)

theorem length_decodeUnicodeEscapeSequence {text rest : Bytes} {unicode : Nat}
    (h : decodeUnicodeEscapeSequence text = some (unicode, rest)) :
    rest.length + 4 = text.length := by
  unfold decodeUnicodeEscapeSequence at h
  split at h
  · rw [Option.bind_eq_bind, Option.bind_eq_some_iff] at h
    obtain ⟨unicode', -, h⟩ := h
    obtain ⟨-, rfl⟩ := Prod.mk.inj (Option.some.inj h)
    rfl
  · cases h

theorem length_decodeUnicodeCodePoint {text rest : Bytes} {unicode : Nat}
    (h : decodeUnicodeCodePoint text = some (unicode, rest)) :
    rest.length + 4 ≤ text.length := by
  unfold decodeUnicodeCodePoint at h
  split at h
  · cases h
  · next unicode' rest' hfirst =>
    have hlen := length_decodeUnicodeEscapeSequence hfirst
    split at h
    · split at h
      · split at h
        · cases h
        · next rest'' _ _ hsecond =>
          -- The second half of the pair is two characters and four digits more.
          have hlen' := length_decodeUnicodeEscapeSequence hsecond
          obtain ⟨-, rfl⟩ := Prod.mk.inj (Option.some.inj h)
          rw [List.length_cons, List.length_cons] at hlen
          omega
      · cases h
    · obtain ⟨-, rfl⟩ := Prod.mk.inj (Option.some.inj h)
      exact hlen.le

/-- No code point takes more than four bytes. -/
theorem length_codePointToUTF8_le (cp : Nat) : (codePointToUTF8 cp).length ≤ 4 := by
  unfold codePointToUTF8
  dsimp only
  split_ifs <;> simp

/-- An escape of `decodeString` that stands for one character. -/
def unescape (escape : UInt8) : Option UInt8 :=
  if escape = 34 then some 34
  else if escape = 47 then some 47
  else if escape = 92 then some 92
  else if escape = 98 then some 8
  else if escape = 102 then some 12
  else if escape = 110 then some 10
  else if escape = 114 then some 13
  else if escape = 116 then some 9
  else none

/-- The loop of `decodeString`. -/
def decodeEscapes (text : Bytes) : Option Bytes :=
  match text with
  | [] => some []
  | c :: rest =>
    if c = 34 then some []
    else if c = 92 then
      match rest with
      | [] => none
      | escape :: rest =>
        if escape = 117 then
          match _ : decodeUnicodeCodePoint rest with
          | none => none
          | some (unicode, rest) => (decodeEscapes rest).map (codePointToUTF8 unicode ++ ·)
        else
          match unescape escape with
          | none => none
          | some c => (decodeEscapes rest).map (c :: ·)
    else (decodeEscapes rest).map (c :: ·)
termination_by text.length
decreasing_by
  · have := length_decodeUnicodeCodePoint ‹_›
    simp only [List.length_cons]
    omega
  · simp only [List.length_cons]
    omega
  · exact Nat.lt_succ_self _

/-- `decodeString`: what stands between the quotation marks of a token. -/
def decodeString (token : Bytes) : Option Bytes := decodeEscapes (token.drop 1).dropLast

/-- The loop of `decodeNumber`; `none` is a number that is read as a `double`. -/
def decodeDigits (maxIntegerValue : Nat) (value : Nat) : Bytes → Option Nat
  | [] => some value
  | c :: rest =>
    let threshold := maxIntegerValue / 10
    let digit := c.toNat - 48
    if !isDigit c then none
    else if threshold ≤ value ∧
        (threshold < value ∨ rest ≠ [] ∨ maxIntegerValue % 10 < digit) then none
    else decodeDigits maxIntegerValue (value * 10 + digit) rest

/-- `decodeNumber`, where `decodeDouble` reads a `double` with `toDouble`. -/
def decodeNumber (toDouble : Bytes → Option (Option Rat)) (token : Bytes) : Option Value :=
  let isNegative : Bool := token.head? = some 45
  let maxIntegerValue := if isNegative then 2 ^ 63 else 2 ^ 64 - 1
  match decodeDigits maxIntegerValue 0 (if isNegative then token.tail else token) with
  | none => (toDouble token).map .real
  | some value =>
    some (if isNegative then .int (-value)
      else if value ≤ 2 ^ 31 - 1 then .int value
      else .uint value)

/-- A string is not longer than its token. -/
theorem length_decodeEscapes_le {text decoded : Bytes} (h : decodeEscapes text = some decoded) :
    decoded.length ≤ text.length := by
  fun_induction decodeEscapes text generalizing decoded with
  | case1 =>
    obtain rfl := Option.some.inj h
    exact Nat.le_refl _
  | case2 rest =>
    obtain rfl := Option.some.inj h
    exact Nat.zero_le _
  | case3 | case4 | case6 => cases h
  | case5 rest unicode rest' hcode _ ih =>
    obtain ⟨tail, htail, rfl⟩ := Option.map_eq_some_iff.mp h
    have hlen := length_decodeUnicodeCodePoint hcode
    have hchar := length_codePointToUTF8_le unicode
    have htail := ih htail
    simp only [List.length_append, List.length_cons]
    omega
  | case7 escape rest _ c hc _ ih =>
    obtain ⟨tail, htail, rfl⟩ := Option.map_eq_some_iff.mp h
    have htail := ih htail
    simp only [List.length_cons]
    omega
  | case8 c rest _ _ ih =>
    obtain ⟨tail, htail, rfl⟩ := Option.map_eq_some_iff.mp h
    exact Nat.succ_le_succ (ih htail)

/-! ## Values -/

/-- `Value(const std::string&)`, of the low 32 bits of the length. -/
def Value.ofString (value : Bytes) : Except Exception Value :=
  let length := value.length % 2 ^ 32
  if length ≤ 2 ^ 31 - 1 - 4 - 1 then .ok (.string (value.take length))
  else .error (.jsonLogicError
    "in Json::Value::duplicateAndPrefixStringValue(): length too big for prefixing")

/-- How a value is read into `currentValue()`: what it is then, whether it was read without an
error, and what remains of the text. -/
abbrev ValueReader := Value → Bytes → Except Exception (Value × Bool × Bytes)

/-- The loop of `readObject`, with the members and the name so far. An empty name lets the object
end behind a comma. -/
def readMembers (readValue : ValueReader) :
    Nat → List (Bytes × Value) → Bytes → Bytes →
      Except Exception (List (Bytes × Value) × Bool × Bytes)
  | 0, _, _, _ => .error .outOfFuel
  | fuel + 1, members, name, text =>
    let (tokenName, text) := skipCommentTokens text
    if tokenName.type = .objectEnd ∧ name = [] then .ok (members, true, text)
    else if tokenName.type ≠ .string then
      .ok (members, false, recoverFromError .objectEnd text)
    else
      match decodeString tokenName.text with
      | none => .ok (members, false, recoverFromError .objectEnd text)
      | some name =>
        let (colon, text) := readToken text
        if colon.type ≠ .memberSeparator then
          .ok (members, false, recoverFromError .objectEnd text)
        else do
          -- a member that is there already is read into once more
          let member := (OrderedMap.find? members (czString name)).getD .null
          let (value, ok, text) ← readValue member text
          let members := OrderedMap.insert members (czString name) value
          if !ok then return (members, false, recoverFromError .objectEnd text)
          let (comma, rest) := readToken text
          if comma.type ≠ .objectEnd ∧ comma.type ≠ .arraySeparator ∧ comma.type ≠ .comment then
            return (members, false, recoverFromError .objectEnd rest)
          -- behind a comment, any token takes the place of the comma
          let (comma, rest) := skipCommentTokens text
          if comma.type = .objectEnd then return (members, true, rest)
          readMembers readValue fuel members name rest

/-- `readObject`, behind the brace. -/
def readObject (readValue : ValueReader) (text : Bytes) :
    Except Exception (Value × Bool × Bytes) := do
  let (members, ok, rest) ← readMembers readValue (text.length + 1) [] [] text
  return (.object members, ok, rest)

/-- The loop of `readArray`, with the elements so far. -/
def readElements (readValue : ValueReader) :
    Nat → List Value → Bytes → Except Exception (List Value × Bool × Bytes)
  | 0, _, _ => .error .outOfFuel
  | fuel + 1, values, text => do
    -- `index` is an `int`, which becomes negative behind `INT_MAX`
    if 2 ^ 31 ≤ values.length then
      throw (.jsonLogicError
        "in Json::Value::operator[](int index): index cannot be negative")
    let (value, ok, text) ← readValue .null text
    let values := values ++ [value]
    if !ok then return (values, false, recoverFromError .arrayEnd text)
    let (token, text) := skipCommentTokens text
    if token.type ≠ .arraySeparator ∧ token.type ≠ .arrayEnd then
      return (values, false, recoverFromError .arrayEnd text)
    if token.type = .arrayEnd then return (values, true, text)
    readElements readValue fuel values text

/-- `readArray`, behind the bracket. -/
def readArray (readValue : ValueReader) (text : Bytes) :
    Except Exception (Value × Bool × Bytes) :=
  let text := skipSpaces text
  if text.head? = some 93 then .ok (.array [], true, (readToken text).2)
  else do
    let (values, ok, rest) ← readElements readValue (text.length + 1) [] text
    return (.array values, ok, rest)

/-- `readValue`, for as many values inside each other as are left. -/
def readValue (toDouble : Bytes → Option (Option Rat)) : Nat → ValueReader
  | 0, _, _ => .error (.jsonRuntimeError "Exceeded stackLimit in readValue().")
  | left + 1, current, text =>
    let (token, rest) := skipCommentTokens text
    match token.type with
    | .objectBegin => readObject (readValue toDouble left) rest
    | .arrayBegin => readArray (readValue toDouble left) rest
    | .number =>
      match decodeNumber toDouble token.text with
      | none => .ok (current, false, rest)
      | some value => .ok (value, true, rest)
    | .string =>
      match decodeString token.text with
      | none => .ok (current, false, rest)
      | some decoded =>
        match Value.ofString decoded with
        | .error exception => .error exception
        | .ok value => .ok (value, true, rest)
    | .true => .ok (.bool true, true, rest)
    | .false => .ok (.bool false, true, rest)
    | .null => .ok (.null, true, rest)
    | _ => .ok (current, false, rest)

/-- `stackLimit_g`. -/
def stackLimit : Nat := 1000

/-- `Reader::parse`: the root, and whether the text was accepted. No other call changes
`stackDepth_g` meanwhile. -/
def parse (toDouble : Bytes → Option (Option Rat)) (text : Bytes) (root : Value) :
    Except Exception (Value × Bool) := do
  let (root, successful, _) ← readValue toDouble stackLimit root text
  return (root, successful)

/-! ## Every text is read to an end -/

/-- The brackets and braces that a text opens. -/
def opens (text : Bytes) : Nat := text.countP fun c => c = 91 || c = 123

theorem opens_le_of_suffix {text rest : Bytes} (h : rest <:+ text) : opens rest ≤ opens text :=
  h.sublist.countP_le

/-- What comes of a text with so many values inside each other left: what remains is the end of the
text, and what is thrown has its cause in the text. -/
def ReadsFrom {α : Type} (left : Nat) (text : Bytes) :
    Except Exception (α × Bool × Bytes) → Prop
  | .ok (_, _, rest) => rest <:+ text
  | .error (.jsonRuntimeError _) => left ≤ opens text
  | .error (.jsonLogicError _) => 2 ^ 31 - 1 - 4 - 1 < text.length
  | .error _ => False

namespace ReadsFrom

variable {α β : Type} {left : Nat} {text rest : Bytes}

theorem mono {x : Except Exception (α × Bool × Bytes)} (h : ReadsFrom left rest x)
    (hrest : rest <:+ text) : ReadsFrom left text x := by
  unfold ReadsFrom at h ⊢
  split at h
  · exact h.trans hrest
  · exact h.trans (opens_le_of_suffix hrest)
  · exact h.trans_le hrest.length_le
  · exact h

/-- Behind a bracket one value less is left. -/
theorem enter {x : Except Exception (α × Bool × Bytes)} (h : ReadsFrom left rest x)
    (hrest : rest <:+ text) (hopens : opens rest < opens text) : ReadsFrom (left + 1) text x := by
  unfold ReadsFrom at h ⊢
  split at h
  · exact h.trans hrest
  · exact Nat.succ_le_of_lt (h.trans_lt hopens)
  · exact h.trans_le hrest.length_le
  · exact h

/-- What is done with a value that was read goes on behind it. -/
theorem bind {x : Except Exception (α × Bool × Bytes)}
    {f : α × Bool × Bytes → Except Exception (β × Bool × Bytes)} (h : ReadsFrom left rest x)
    (hrest : rest <:+ text)
    (hf : ∀ value ok rest', rest' <:+ rest → ReadsFrom left text (f (value, ok, rest'))) :
    ReadsFrom left text (x >>= f) := by
  cases x with
  | error e =>
    have herror : ReadsFrom (α := β) left rest (.error e) := by
      cases e <;> exact h
    exact herror.mono hrest
  | ok r =>
    obtain ⟨value, ok, rest'⟩ := r
    exact hf value ok rest' h

end ReadsFrom

section Loops

variable {read : ValueReader} {left fuel : Nat} {members : List (Bytes × Value)}
  {values : List Value} {name text : Bytes}

/-- The members of an object are read to an end where their values are. -/
theorem readMembers_readsFrom (hread : ∀ value text, ReadsFrom left text (read value text))
    (hfuel : text.length < fuel) :
    ReadsFrom left text (readMembers read fuel members name text) := by
  induction fuel generalizing members name text with
  | zero => exact absurd hfuel (Nat.not_lt_zero _)
  | succ fuel ih =>
    have htoken := skipCommentTokens_suffix text
    have hrecover := recoverFromError_suffix .objectEnd
    unfold readMembers
    generalize skipCommentTokens text = token at htoken ⊢
    obtain ⟨tokenName, rest₁⟩ := token
    dsimp only at htoken ⊢
    split
    · exact htoken
    split
    · exact (hrecover _).trans htoken
    split
    · exact (hrecover _).trans htoken
    next name hname =>
    have hcolon := (readToken_suffix rest₁).trans htoken
    generalize readToken rest₁ = token at hcolon ⊢
    obtain ⟨colon, rest₂⟩ := token
    dsimp only at hcolon ⊢
    split
    · exact (hrecover _).trans hcolon
    refine (hread _ _).bind hcolon fun value ok rest hrest => ?_
    replace hrest := hrest.trans hcolon
    dsimp only
    split
    · exact (hrecover _).trans hrest
    split
    · exact (hrecover _).trans ((readToken_suffix _).trans hrest)
    next hcomma =>
    have hskip := (skipCommentTokens_suffix rest).trans hrest
    split
    · exact hskip
    refine (ih ?_).mono hskip
    -- The loop goes on behind a comma or a comment at least.
    have hlt : (readToken rest).2.length < rest.length :=
      length_readToken_lt fun h => by simp [h] at hcomma
    have hle : (skipCommentTokens rest).2.length ≤ (readToken rest).2.length := by
      rw [skipCommentTokens]
      split
      · exact (skipCommentTokens_suffix _).length_le
      · exact Nat.le_refl _
    have := hrest.length_le
    omega

/-- The elements of an array are read to an end where they are read to an end themselves. There are
not more of them than bytes that were read. -/
theorem readElements_readsFrom (hread : ∀ value text, ReadsFrom left text (read value text))
    {whole : Bytes} (hwhole : text <:+ whole) (hvalues : values.length + text.length ≤ whole.length)
    (hfuel : text.length < fuel) : ReadsFrom left whole (readElements read fuel values text) := by
  induction fuel generalizing values text with
  | zero => exact absurd hfuel (Nat.not_lt_zero _)
  | succ fuel ih =>
    have hrecover := recoverFromError_suffix .arrayEnd
    unfold readElements
    by_cases hindex : 2 ^ 31 ≤ values.length
    · -- so many elements take a longer text
      rw [if_pos hindex]
      change 2 ^ 31 - 1 - 4 - 1 < whole.length
      omega
    rw [if_neg hindex]
    refine (hread _ _).bind hwhole fun value ok rest hrest => ?_
    have hskip := (skipCommentTokens_suffix rest).trans hrest
    dsimp only
    split
    · exact (hrecover _).trans (hrest.trans hwhole)
    split
    · exact (hrecover _).trans (hskip.trans hwhole)
    next hcomma =>
    split
    · exact hskip.trans hwhole
    -- As for the members, something is used up.
    have hlt : (skipCommentTokens rest).2.length < rest.length := by
      rw [skipCommentTokens] at hcomma ⊢
      split
      · next hcomment =>
        exact (skipCommentTokens_suffix _).length_le.trans_lt
          (length_readToken_lt fun h => by simp [h] at hcomment)
      · next hcomment =>
        rw [dif_neg hcomment] at hcomma
        exact length_readToken_lt fun h => by simp [h] at hcomma
    have := hrest.length_le
    refine ih (hskip.trans hwhole) ?_ ?_
    · rw [List.length_append, List.length_singleton]
      omega
    · omega

/-- The object is read to an end, too. -/
theorem readObject_readsFrom (hread : ∀ value text, ReadsFrom left text (read value text))
    (text : Bytes) : ReadsFrom left text (readObject read text) :=
  (readMembers_readsFrom hread (Nat.lt_succ_self _)).bind (List.suffix_refl _)
    fun _ _ _ hrest => hrest

/-- And so is the array. -/
theorem readArray_readsFrom (hread : ∀ value text, ReadsFrom left text (read value text))
    (text : Bytes) : ReadsFrom left text (readArray read text) := by
  have hskip := skipSpaces_suffix text
  unfold readArray
  dsimp only
  split
  · exact (readToken_suffix _).trans hskip
  · have helements := readElements_readsFrom hread (List.suffix_refl (skipSpaces text))
      (show ([] : List Value).length + _ ≤ _ from Nat.le_of_eq (Nat.zero_add _))
      (Nat.lt_succ_self _)
    exact helements.bind hskip fun _ _ _ hrest => hrest.trans hskip

end Loops

variable {text : Bytes}

/-- An opening token is one character. -/
theorem opens_readToken_lt (h : (readToken text).1.type = .objectBegin ∨
    (readToken text).1.type = .arrayBegin) : opens (readToken text).2 < opens text := by
  have hswitch : ∀ c rest, (readTokenType c rest).1 = .objectBegin ∨
      (readTokenType c rest).1 = .arrayBegin → c = 123 ∨ c = 91 := by
    intro c rest
    fun_cases readTokenType c rest
    all_goals grind [tokenOrError]
  unfold readToken at h ⊢
  split at h
  · simp at h
  · next c rest heq =>
    dsimp only at h ⊢
    have hrest := opens_le_of_suffix (readTokenType_suffix c rest)
    have hskip := opens_le_of_suffix (heq ▸ skipSpaces_suffix text)
    have hcons : opens (c :: rest) = opens rest + 1 := by
      rcases hswitch c rest h with rfl | rfl
      · exact List.countP_cons_of_pos rfl
      · exact List.countP_cons_of_pos rfl
    omega

theorem opens_skipCommentTokens_lt (h : (skipCommentTokens text).1.type = .objectBegin ∨
    (skipCommentTokens text).1.type = .arrayBegin) :
    opens (skipCommentTokens text).2 < opens text := by
  fun_induction skipCommentTokens text with
  | case1 text hcomment ih => exact (ih h).trans_le (opens_le_of_suffix (readToken_suffix text))
  | case2 text hcomment => exact opens_readToken_lt h

/-- The text of a token is a part of the text. -/
theorem length_token_le (text : Bytes) : (skipCommentTokens text).1.text.length ≤ text.length := by
  fun_induction skipCommentTokens text with
  | case1 text h ih => exact ih.trans (readToken_suffix text).length_le
  | case2 text h =>
    unfold readToken
    split
    · exact Nat.zero_le _
    · next c rest heq =>
      exact (List.length_take_le' _ _).trans (heq ▸ skipSpaces_suffix text).length_le

/-- Every text is read to an end. The stack limit takes as many brackets, and a string that is too
long takes a longer text. -/
theorem readValue_readsFrom (toDouble : Bytes → Option (Option Rat)) (left : Nat) (value : Value)
    (text : Bytes) : ReadsFrom left text (readValue toDouble left value text) := by
  induction left generalizing value text with
  | zero => exact Nat.zero_le _
  | succ left ih =>
    have hrest := skipCommentTokens_suffix text
    have hopens := @opens_skipCommentTokens_lt text
    have hlength := length_token_le text
    unfold readValue
    generalize skipCommentTokens text = token at hrest hopens hlength ⊢
    obtain ⟨token, rest⟩ := token
    dsimp only at hrest hopens hlength ⊢
    split
    · next htype => exact (readObject_readsFrom (ih · ·) rest).enter hrest (hopens (.inl htype))
    · next htype => exact (readArray_readsFrom (ih · ·) rest).enter hrest (hopens (.inr htype))
    · split
      · exact hrest
      · exact hrest
    · split
      · exact hrest
      · next decoded hdecoded =>
        unfold Value.ofString
        dsimp only
        by_cases hlong : decoded.length % 2 ^ 32 ≤ 2 ^ 31 - 1 - 4 - 1
        · rw [if_pos hlong]
          exact hrest
        · rw [if_neg hlong]
          -- What is decoded is shorter than the token, which is a part of the text.
          have hle := length_decodeEscapes_le hdecoded
          have hmod := Nat.mod_le decoded.length (2 ^ 32)
          rw [List.length_dropLast, List.length_drop] at hle
          change 2 ^ 31 - 1 - 4 - 1 < text.length
          omega
    all_goals exact hrest

/-- Every text is read to an end. An exception for its nesting takes as many brackets and braces as
the stack limit, and one for a string or an array takes a text of almost 2 GiB. -/
theorem parse_ends (toDouble : Bytes → Option (Option Rat)) (text : Bytes) (root : Value) :
    (∃ read, parse toDouble text root = .ok read) ∨
      (∃ message, parse toDouble text root = .error (.jsonRuntimeError message) ∧
        stackLimit ≤ opens text) ∨
      ∃ message, parse toDouble text root = .error (.jsonLogicError message) ∧
        2 ^ 31 - 1 - 4 - 1 < text.length := by
  have hread := readValue_readsFrom toDouble stackLimit root text
  unfold parse
  cases hresult : readValue toDouble stackLimit root text with
  | ok r => exact .inl ⟨_, rfl⟩
  | error e =>
    -- there are no other exceptions, and the fuel does not run out
    rw [hresult] at hread
    cases e with
    | jsonRuntimeError message => exact .inr (.inl ⟨message, rfl, hread⟩)
    | jsonLogicError message => exact .inr (.inr ⟨message, rfl, hread⟩)
    | _ => exact hread.elim

/-- An empty text is not accepted. -/
theorem parse_nil (toDouble : Bytes → Option (Option Rat)) (root : Value) :
    parse toDouble [] root = .ok (root, false) := by
  have htoken : skipCommentTokens [] = (⟨.endOfStream, []⟩, []) := by
    rw [skipCommentTokens]
    rfl
  rw [parse, stackLimit, readValue, htoken]
  rfl

/-- The reader. -/
def Reader.jsonCpp (toDouble : Bytes → Option (Option Rat)) : Reader where
  parse := Json.parse toDouble
  parse_nil := Json.parse_nil toDouble

end MosqCluster.Json
