import Mathlib.Data.List.DropRight
import MosqCluster.Helper.JsonReader
import MosqCluster.Helper.JsonWriter

/-!
# Spelled values

What the reader makes of a text that spells a value, by one rule for each way to put texts together.
A text spells a value if it is read as the value whatever follows it, as long as that does not go on
with a number. Blanks may stand before any token.

## Main definitions

* `Json.Spells`: a text is read as a value;
* `Json.SpellsElements` and `Json.SpellsMembers`: a text is read as what an array or an object
  holds, to the closing bracket.

## Main results

* `Json.Spells.int` and `Json.Spells.string`: what `valueToString` and `valueToQuotedStringN` write
  is read back;
* `Json.Spells.array` and `Json.Spells.object`.
-/

namespace MosqCluster.Json

/-! ## Blanks -/

/-- A text of white space. -/
def IsBlank (text : Bytes) : Prop := ∀ c ∈ text, c = 32 ∨ c = 9 ∨ c = 13 ∨ c = 10

theorem IsBlank.nil : IsBlank [] := fun _ hc => by simp at hc

theorem IsBlank.append {a b : Bytes} (ha : IsBlank a) (hb : IsBlank b) : IsBlank (a ++ b) :=
  fun c hc => (List.mem_append.mp hc).elim (ha c) (hb c)

theorem IsBlank.zero_notMem {a : Bytes} (ha : IsBlank a) : 0 ∉ a := fun h => by
  have := ha 0 h
  simp at this

/-- A character that begins a token. -/
def IsToken (c : UInt8) : Prop := ¬ (c = 32 ∨ c = 9 ∨ c = 13 ∨ c = 10)

instance (c : UInt8) : Decidable (IsToken c) := inferInstanceAs (Decidable (¬ _))

section Tokens

variable {b text rest : Bytes} {c : UInt8}

@[simp]
theorem skipSpaces_blank_append (hb : IsBlank b) (text : Bytes) :
    skipSpaces (b ++ text) = skipSpaces text := by
  refine List.dropWhile_append_of_pos fun c hc => ?_
  simpa [or_assoc] using hb c hc

theorem skipSpaces_cons (hc : IsToken c) (rest : Bytes) : skipSpaces (c :: rest) = c :: rest := by
  refine List.dropWhile_cons_of_neg ?_
  simpa [IsToken, not_or, and_assoc] using hc

theorem skipSpaces_append (h : skipSpaces text = c :: rest) (after : Bytes) :
    skipSpaces (text ++ after) = c :: rest ++ after := by
  unfold skipSpaces at h ⊢
  rw [List.dropWhile_append, h]
  rfl

theorem skipSpaces_idem (text : Bytes) : skipSpaces (skipSpaces text) = skipSpaces text :=
  List.dropWhile_idempotent _ _

theorem readToken_skipSpaces (text : Bytes) : readToken (skipSpaces text) = readToken text := by
  rw [readToken, skipSpaces_idem, ← readToken]

theorem skipCommentTokens_skipSpaces (text : Bytes) :
    skipCommentTokens (skipSpaces text) = skipCommentTokens text := by
  rw [skipCommentTokens, readToken_skipSpaces, ← skipCommentTokens]

theorem readToken_blank_append (hb : IsBlank b) (text : Bytes) :
    readToken (b ++ text) = readToken text := by
  rw [← readToken_skipSpaces, skipSpaces_blank_append hb, readToken_skipSpaces]

theorem readToken_cons (hc : IsToken c) (rest : Bytes) :
    readToken (c :: rest) =
      (⟨(readTokenType c rest).1,
        (c :: rest).take (rest.length + 1 - (readTokenType c rest).2.length)⟩,
        (readTokenType c rest).2) := by
  rw [readToken, skipSpaces_cons hc]

/-- A token that ends with its text. -/
theorem readToken_append {type : TokenType} (hc : IsToken c)
    (h : readTokenType c (text ++ rest) = (type, rest)) :
    readToken (c :: text ++ rest) = (⟨type, c :: text⟩, rest) := by
  rw [List.cons_append, readToken_cons hc, h]
  have hlen : (text ++ rest).length + 1 - rest.length = (c :: text).length := by
    rw [List.length_append, List.length_cons]
    omega
  dsimp only
  rw [hlen, ← List.cons_append, List.take_left]

/-- A token of one character. -/
theorem readToken_single {type : TokenType} (hc : IsToken c)
    (h : readTokenType c rest = (type, rest)) : readToken (c :: rest) = (⟨type, [c]⟩, rest) := by
  rw [readToken_cons hc, h]
  dsimp only
  rw [Nat.add_sub_cancel_left, List.take_succ_cons, List.take_zero]

/-- No comment is skipped before another token. -/
theorem skipCommentTokens_of_readToken {token : Token} (h : readToken text = (token, rest))
    (hne : token.type ≠ .comment) : skipCommentTokens text = (token, rest) := by
  rw [skipCommentTokens, dif_neg (by rw [h]; exact hne), h]

end Tokens

/-! ## Numbers -/

/-- An integer as the reader represents it. -/
def Value.ofInteger (value : Int) : Value :=
  if value < 2 ^ 31 then .int value else .uint value.toNat

section Numbers

/-- A text that does not go on with a number. -/
def EndsNumber (rest : Bytes) : Prop :=
  ∀ c ∈ rest.head?, isDigit c = false ∧ c ≠ 46 ∧ c ≠ 101 ∧ c ≠ 69

variable {digits rest acc : Bytes} {value maxIntegerValue : Nat}

theorem readNumber_append (hdigits : ∀ c ∈ digits, isDigit c) (hrest : EndsNumber rest) :
    readNumber (digits ++ rest) = rest := by
  have hread : readDigits (digits ++ rest) = rest := by
    rw [readDigits, List.dropWhile_append_of_pos hdigits]
    cases rest with
    | nil => rfl
    | cons c rest => exact List.dropWhile_cons_of_neg (by simp [(hrest c rfl).1])
  have hhead : ∀ c, rest.head? = some c → c ≠ 46 ∧ c ≠ 101 ∧ c ≠ 69 := fun c hc => (hrest c hc).2
  rw [readNumber, hread, readFractionalPart, if_neg fun h => (hhead 46 h).1 rfl,
    readExponentialPart, if_neg]
  rintro (h | h)
  · exact (hhead 101 h).2.1 rfl
  · exact (hhead 69 h).2.2 rfl

/-- A digit begins a number. -/
theorem readTokenType_digit {c : UInt8} (hc : isDigit c) (rest : Bytes) :
    IsToken c ∧ readTokenType c rest = (.number, readNumber rest) := by
  have hne : ∀ d, isDigit d = false → c ≠ d := fun d hd h => by
    rw [h, hd] at hc
    cases hc
  refine ⟨?_, ?_⟩
  · rintro (h | h | h | h) <;> exact hne _ rfl h
  · rw [readTokenType, if_neg (hne 123 rfl), if_neg (hne 125 rfl), if_neg (hne 91 rfl),
      if_neg (hne 93 rfl), if_neg (hne 34 rfl), if_neg (hne 47 rfl), hc, Bool.true_or, if_pos rfl]

/-- A digit of `uintToString`. -/
theorem isDigit_ofNat {n : Nat} (h : n < 10) :
    isDigit (UInt8.ofNat (n + 48)) ∧ (UInt8.ofNat (n + 48)).toNat - 48 = n := by
  have hall : ∀ n < 10, isDigit (UInt8.ofNat (n + 48)) ∧ (UInt8.ofNat (n + 48)).toNat - 48 = n := by
    decide
  exact hall n h

theorem isDigit_of_mem_uintToString {c : UInt8} (hacc : ∀ c ∈ acc, isDigit c)
    (hc : c ∈ uintToString value acc) : isDigit c := by
  induction value using Nat.strong_induction_on generalizing acc with
  | _ value ih =>
    have hcons : ∀ c ∈ UInt8.ofNat (value % 10 + 48) :: acc, isDigit c := by
      intro c hc
      rcases List.mem_cons.mp hc with rfl | hc
      · exact (isDigit_ofNat (Nat.mod_lt _ (by decide))).1
      · exact hacc c hc
    rw [uintToString] at hc
    split at hc
    · exact hcons c hc
    · exact ih (value / 10) (by omega) hcons hc

theorem uintToString_ne_nil : uintToString value acc ≠ [] := by
  induction value using Nat.strong_induction_on generalizing acc with
  | _ value ih =>
    rw [uintToString]
    split
    · exact List.cons_ne_nil _ _
    · exact ih (value / 10) (by omega)

/-- A number that does not exceed the maximum is decoded digit by digit. -/
theorem decodeDigits_uintToString (hmax : 10 ≤ maxIntegerValue)
    (h : value ≤ maxIntegerValue / 10 ∨ acc = [] ∧ value ≤ maxIntegerValue) :
    decodeDigits maxIntegerValue 0 (uintToString value acc) =
      decodeDigits maxIntegerValue value acc := by
  induction value using Nat.strong_induction_on generalizing acc with
  | _ value ih =>
    -- The last digit is decoded behind the ones before it.
    have hlast : decodeDigits maxIntegerValue (value / 10)
        (UInt8.ofNat (value % 10 + 48) :: acc) = decodeDigits maxIntegerValue value acc := by
      obtain ⟨hdigit, hvalue⟩ := isDigit_ofNat (Nat.mod_lt value (by decide))
      rw [decodeDigits]
      rw [hdigit, hvalue, Bool.not_true, if_neg (by decide), if_neg]
      · congr 1
        omega
      · rintro ⟨hle, hlt | hne | hlt⟩
        · omega
        · have := h.resolve_right fun hnil => hne hnil.1
          omega
        · omega
    rw [uintToString]
    split
    · next hzero =>
      rw [← hlast, hzero]
    · rw [ih (value / 10) (by omega) (.inl (by omega)), hlast]

end Numbers

/-! ## Strings -/

section Strings

variable {value text rest : Bytes} {c : UInt8}

/-- A property of the control characters is checked for each of them. -/
theorem of_le_control {p : UInt8 → Prop} (hall : ∀ n < 32, p (.ofNat n)) (hc : c ≤ 0x1f) : p c := by
  have hle : c.toNat ≤ 0x1f := UInt8.le_iff_toNat_le.mp hc
  have := hall c.toNat (by omega)
  rwa [UInt8.ofNat_toNat] at this

/-- The number of a control character has two digits. -/
theorem decodeUnicodeCodePoint_control (hc : c ≤ 0x1f) (text : Bytes) :
    decodeUnicodeCodePoint ([48, 48, hexDigit (c / 16), hexDigit (c % 16)] ++ text) =
      some (c.toNat, text) := by
  have hdigits : [48, 48, hexDigit (c / 16), hexDigit (c % 16)].foldlM (fun unicode c => do
      return unicode * 16 + (← unicodeDigit c)) 0 = some c.toNat :=
    of_le_control (p := fun c => [48, 48, hexDigit (c / 16), hexDigit (c % 16)].foldlM
      (fun unicode c => do return unicode * 16 + (← unicodeDigit c)) 0 = some c.toNat)
      (by decide) hc
  have hread : decodeUnicodeEscapeSequence
      ([48, 48, hexDigit (c / 16), hexDigit (c % 16)] ++ text) = some (c.toNat, text) := by
    change Option.bind _ _ = _
    rw [hdigits]
    rfl
  have hle : c.toNat ≤ 0x1f := UInt8.le_iff_toNat_le.mp hc
  rw [decodeUnicodeCodePoint, hread]
  dsimp only
  rw [if_neg (by omega)]

/-- The kinds of characters in a string. -/
theorem quoteCharacter_cases (c : UInt8) :
    (∃ escape, quoteCharacter c = [92, escape] ∧ escape ≠ 117 ∧ unescape escape = some c) ∨
    (c ≤ 0x1f ∧ quoteCharacter c = [92, 117, 48, 48, hexDigit (c / 16), hexDigit (c % 16)]) ∨
    (quoteCharacter c = [c] ∧ c ≠ 34 ∧ c ≠ 92 ∧ c ≠ 0) := by
  unfold quoteCharacter
  split_ifs with h₁ h₂ h₃ h₄ h₅ h₆ h₇ h₈
  · exact .inl ⟨34, rfl, by decide, by rw [h₁]; rfl⟩
  · exact .inl ⟨92, rfl, by decide, by rw [h₂]; rfl⟩
  · exact .inl ⟨98, rfl, by decide, h₃ ▸ rfl⟩
  · exact .inl ⟨102, rfl, by decide, h₄ ▸ rfl⟩
  · exact .inl ⟨110, rfl, by decide, h₅ ▸ rfl⟩
  · exact .inl ⟨114, rfl, by decide, by rw [h₆]; rfl⟩
  · exact .inl ⟨116, rfl, by decide, by rw [h₇]; rfl⟩
  · refine .inr (.inl ⟨?_, rfl⟩)
    rcases Bool.or_eq_true_iff.mp h₈ with h | h
    · exact of_decide_eq_true (Bool.and_eq_true_iff.mp h).2
    · rw [of_decide_eq_true h]
      decide
  · refine .inr (.inr ⟨rfl, h₁, h₂, ?_⟩)
    rintro rfl
    exact h₈ (by decide)

theorem readString_cons (hslash : c ≠ 92) (hquote : c ≠ 34) (rest : Bytes) :
    readString (c :: rest) = readString rest := by
  rw [readString.eq_def]
  simp only [hslash, hquote, if_false]

theorem readString_escape (c : UInt8) (rest : Bytes) :
    readString (92 :: c :: rest) = readString rest := rfl

/-- The end of a string is not seen in it. -/
theorem readString_quoteCharacter (c : UInt8) (text : Bytes) :
    readString (quoteCharacter c ++ text) = readString text := by
  rcases quoteCharacter_cases c with ⟨escape, heq, -, -⟩ | ⟨hc, heq⟩ | ⟨heq, hquote, hslash, -⟩
  · rw [heq]
    rfl
  · obtain ⟨h₁, h₂, h₃, h₄⟩ : hexDigit (c / 16) ≠ 92 ∧ hexDigit (c / 16) ≠ 34 ∧
        hexDigit (c % 16) ≠ 92 ∧ hexDigit (c % 16) ≠ 34 :=
      of_le_control (p := fun c => hexDigit (c / 16) ≠ 92 ∧ hexDigit (c / 16) ≠ 34 ∧
        hexDigit (c % 16) ≠ 92 ∧ hexDigit (c % 16) ≠ 34) (by decide) hc
    rw [heq]
    simp only [List.cons_append, List.nil_append]
    rw [readString_escape, readString_cons (by decide) (by decide),
      readString_cons (by decide) (by decide), readString_cons h₁ h₂, readString_cons h₃ h₄]
  · rw [heq]
    exact readString_cons hslash hquote text

theorem decodeEscapes_cons (hslash : c ≠ 92) (hquote : c ≠ 34) (rest : Bytes) :
    decodeEscapes (c :: rest) = (decodeEscapes rest).map (c :: ·) := by
  rw [decodeEscapes.eq_def]
  simp only [hslash, hquote, if_false]

theorem decodeEscapes_unicode {unicode : Nat}
    (h : decodeUnicodeCodePoint text = some (unicode, rest)) :
    decodeEscapes (92 :: 117 :: text) =
      (decodeEscapes rest).map (codePointToUTF8 unicode ++ ·) := by
  rw [decodeEscapes.eq_def]
  simp only [if_neg (by decide : ¬ (92 : UInt8) = 34), if_true]
  split
  · next hnone => simp [h] at hnone
  · next unicode' rest' hsome =>
    obtain ⟨rfl, rfl⟩ := Prod.mk.inj (Option.some.inj (h.symm.trans hsome))
    rfl

theorem decodeEscapes_quoteCharacter (c : UInt8) (text : Bytes) :
    decodeEscapes (quoteCharacter c ++ text) = (decodeEscapes text).map (c :: ·) := by
  rcases quoteCharacter_cases c with ⟨escape, heq, hne, hescape⟩ | ⟨hc, heq⟩ |
    ⟨heq, hquote, hslash, -⟩
  · rw [heq]
    simp [decodeEscapes, hne, hescape]
  · have hutf8 : codePointToUTF8 c.toNat = [c] :=
      of_le_control (p := fun c => codePointToUTF8 c.toNat = [c]) (by decide) hc
    have hread := decodeEscapes_unicode (decodeUnicodeCodePoint_control hc text)
    rw [hutf8] at hread
    rw [heq]
    exact hread
  · rw [heq]
    exact decodeEscapes_cons hslash hquote text

theorem readString_quoted (value rest : Bytes) :
    readString (value.flatMap quoteCharacter ++ 34 :: rest) = (true, rest) := by
  induction value with
  | nil =>
    rw [List.flatMap_nil, List.nil_append, readString.eq_def]
    rfl
  | cons c value ih => rw [List.flatMap_cons, List.append_assoc, readString_quoteCharacter, ih]

theorem decodeEscapes_quoted (value : Bytes) :
    decodeEscapes (value.flatMap quoteCharacter) = some value := by
  induction value with
  | nil => simp [decodeEscapes]
  | cons c value ih => rw [List.flatMap_cons, decodeEscapes_quoteCharacter, ih, Option.map_some]

/-- What is quoted is one token. -/
theorem readToken_quoted (value rest : Bytes) :
    readToken (valueToQuotedStringN value ++ rest) =
      (⟨.string, valueToQuotedStringN value⟩, rest) := by
  have hswitch : readTokenType 34 (value.flatMap quoteCharacter ++ [34] ++ rest) =
      (.string, rest) := by
    rw [List.append_assoc, List.singleton_append]
    simp [readTokenType, tokenOrError, readString_quoted]
  rw [valueToQuotedStringN_eq, List.append_assoc [34], List.singleton_append]
  exact readToken_append (by decide) hswitch

theorem decodeString_quoted (value : Bytes) :
    decodeString (valueToQuotedStringN value) = some value := by
  rw [valueToQuotedStringN_eq, decodeString, List.append_assoc, List.singleton_append,
    List.drop_one, List.tail_cons, List.dropLast_concat, decodeEscapes_quoted]

theorem zero_notMem_quoted (value : Bytes) : 0 ∉ valueToQuotedStringN value := by
  have hdigits : ∀ c : UInt8, c ≤ 0x1f → 0 ≠ hexDigit (c / 16) ∧ 0 ≠ hexDigit (c % 16) :=
    fun _ => of_le_control (p := fun c => 0 ≠ hexDigit (c / 16) ∧ 0 ≠ hexDigit (c % 16)) (by decide)
  have hunescape : unescape 0 = none := rfl
  rw [valueToQuotedStringN_eq]
  simp only [List.singleton_append, List.mem_append, List.mem_cons, List.mem_flatMap,
    List.not_mem_nil, or_false, not_or, not_exists, not_and]
  refine ⟨⟨by decide, fun c _ => ?_⟩, by decide⟩
  rcases quoteCharacter_cases c with ⟨escape, heq, -, hescape⟩ | ⟨hc, heq⟩ | ⟨heq, -, -, hzero⟩
  · have hne : (0 : UInt8) ≠ escape := by
      rintro rfl
      rw [hunescape] at hescape
      cases hescape
    simp [heq, hne]
  · simp [heq, hdigits c hc]
  · simp [heq, Ne.symm hzero]

end Strings

/-! ## Spelled values -/

section Spells

variable {toDouble : Bytes → Option (Option Rat)} {n m : Nat} {b text texts name colon : Bytes}
  {v : Value} {values : List Value} {members : List (Bytes × Value)}

/-- A text is read as a value that has at most so many values inside each other. -/
structure Spells (toDouble : Bytes → Option (Option Rat)) (n : Nat) (text : Bytes) (v : Value) :
    Prop where
  reads : ∀ left current rest, n ≤ left → EndsNumber rest →
    readValue toDouble left current (text ++ rest) = .ok (v, true, rest)
  zero_notMem : 0 ∉ text

/-- A text is read as the elements of an array, to the closing bracket. -/
structure SpellsElements (toDouble : Bytes → Option (Option Rat)) (n : Nat) (text : Bytes)
    (values : List Value) : Prop where
  reads : ∀ left fuel before rest, n ≤ left → before.length + values.length ≤ 2 ^ 31 →
    (skipSpaces text).length < fuel → readElements (readValue toDouble left) fuel before
      (text ++ rest) = .ok (before ++ values, true, rest)
  zero_notMem : 0 ∉ text
  /-- The first token is no closing bracket. -/
  begins : ∃ c rest, skipSpaces text = c :: rest ∧ c ≠ 93

/-- A text is read as the members of an object, to the closing brace. -/
structure SpellsMembers (toDouble : Bytes → Option (Option Rat)) (n : Nat) (text : Bytes)
    (members : List (Bytes × Value)) : Prop where
  reads : ∀ left fuel before name rest, n ≤ left → text.length < fuel →
    readMembers (readValue toDouble left) fuel before name (text ++ rest) =
      .ok (members.foldl (fun before member => OrderedMap.insert before member.1 member.2) before,
        true, rest)
  zero_notMem : 0 ∉ text

theorem EndsNumber.of_cons {c : UInt8} (hc : isDigit c = false ∧ c ≠ 46 ∧ c ≠ 101 ∧ c ≠ 69)
    (rest : Bytes) : EndsNumber (c :: rest) := fun c' hc' => by
  obtain rfl := Option.some.inj hc'
  exact hc

theorem EndsNumber.blank_append {rest : Bytes} (hb : IsBlank b) (h : EndsNumber rest) :
    EndsNumber (b ++ rest) := by
  cases b with
  | nil => exact h
  | cons c b =>
    refine .of_cons ?_ _
    rcases hb c List.mem_cons_self with rfl | rfl | rfl | rfl <;> decide

theorem readValue_skipSpaces (left : Nat) (current : Value) (text : Bytes) :
    readValue toDouble left current (skipSpaces text) = readValue toDouble left current text := by
  cases left with
  | zero => rfl
  | succ left => rw [readValue, skipCommentTokens_skipSpaces, ← readValue]

/-- The first token is not changed by what follows. -/
theorem begins_append (h : ∃ c rest, skipSpaces text = c :: rest ∧ c ≠ 93) (after : Bytes) :
    ∃ c rest, skipSpaces (text ++ after) = c :: rest ∧ c ≠ 93 := by
  obtain ⟨c, rest, heq, hc⟩ := h
  exact ⟨c, rest ++ after, skipSpaces_append heq after, hc⟩

namespace Spells

theorem mono (h : Spells toDouble n text v) (hle : n ≤ m) : Spells toDouble m text v :=
  ⟨fun left current rest hleft => h.reads left current rest (hle.trans hleft), h.zero_notMem⟩

/-- Blanks may stand before a value. -/
theorem blank_append (h : Spells toDouble n text v) (hb : IsBlank b) :
    Spells toDouble n (b ++ text) v where
  reads left current rest hleft hrest := by
    rw [List.append_assoc, ← readValue_skipSpaces, skipSpaces_blank_append hb,
      readValue_skipSpaces, h.reads left current rest hleft hrest]
  zero_notMem := fun hmem => (List.mem_append.mp hmem).elim hb.zero_notMem h.zero_notMem

/-- A value begins with a token that closes nothing. -/
theorem begins (h : Spells toDouble n text v) : ∃ c rest, skipSpaces text = c :: rest ∧ c ≠ 93 := by
  have hread := h.reads (n + 1) .null [] (Nat.le_succ n) fun c hc => by cases hc
  rw [List.append_nil, ← readValue_skipSpaces, readValue] at hread
  cases hskip : skipSpaces text with
  | nil =>
    have htoken : skipCommentTokens [] = (⟨.endOfStream, []⟩, []) :=
      skipCommentTokens_of_readToken rfl (fun h => by cases h)
    rw [hskip, htoken] at hread
    cases hread
  | cons c rest =>
    refine ⟨c, rest, rfl, ?_⟩
    rintro rfl
    have htoken : skipCommentTokens (93 :: rest) = (⟨.arrayEnd, [93]⟩, rest) :=
      skipCommentTokens_of_readToken (readToken_single (by decide) rfl) (fun h => by cases h)
    rw [hskip, htoken] at hread
    cases hread

/-- A value of one token. -/
theorem of_token (token : Token) (hne : token.type ≠ .comment) (hzero : 0 ∉ text)
    (htoken : ∀ rest, EndsNumber rest → readToken (text ++ rest) = (token, rest))
    (hvalue : ∀ left current rest text, skipCommentTokens text = (token, rest) →
      readValue toDouble (left + 1) current text = .ok (v, true, rest)) :
    Spells toDouble 1 text v where
  reads left current rest hleft hrest := by
    obtain ⟨left, rfl⟩ := Nat.exists_eq_add_of_le' hleft
    exact hvalue left current rest _ (skipCommentTokens_of_readToken (htoken rest hrest) hne)
  zero_notMem := hzero

theorem null : Spells toDouble 1 (bytes "null") .null :=
  of_token ⟨.null, bytes "null"⟩ (fun h => by cases h) (by decide)
    (fun _ _ => readToken_append (by decide) rfl) fun _ _ _ _ h => by rw [readValue, h]

theorem bool (value : Bool) :
    Spells toDouble 1 (bytes (if value then "true" else "false")) (.bool value) := by
  cases value with
  | true =>
    exact of_token ⟨.true, bytes "true"⟩ (fun h => by cases h) (by decide)
      (fun _ _ => readToken_append (by decide) rfl) fun _ _ _ _ h => by rw [readValue, h]
  | false =>
    exact of_token ⟨.false, bytes "false"⟩ (fun h => by cases h) (by decide)
      (fun _ _ => readToken_append (by decide) rfl) fun _ _ _ _ h => by rw [readValue, h]

/-- A string that is not too long for the reader. -/
theorem string {value : Bytes} (h : value.length ≤ 2 ^ 31 - 1 - 4 - 1) :
    Spells toDouble 1 (valueToQuotedStringN value) (.string value) := by
  have hvalue : Value.ofString value = .ok (.string value) := by
    rw [Value.ofString, Nat.mod_eq_of_lt (by omega), if_pos h, List.take_length]
  refine of_token ⟨.string, valueToQuotedStringN value⟩ (fun h => by cases h)
    (zero_notMem_quoted value) (fun rest _ => readToken_quoted value rest) fun _ _ _ _ htoken => ?_
  rw [readValue, htoken]
  dsimp only
  rw [decodeString_quoted]
  dsimp only
  rw [hvalue]

/-- An integer is one token. -/
theorem readToken_valueToString (value : Int) {rest : Bytes} (hrest : EndsNumber rest) :
    readToken (valueToString value ++ rest) = (⟨.number, valueToString value⟩, rest) := by
  have hdigits : ∀ n, ∀ c ∈ uintToString n [], isDigit c :=
    fun n c hc => isDigit_of_mem_uintToString (fun c hc => by cases hc) hc
  unfold valueToString
  split
  · refine readToken_append (by decide) ?_
    simp [readTokenType, isDigit, readNumber_append (hdigits _) hrest]
  · cases htext : uintToString value.toNat [] with
    | nil => exact absurd htext uintToString_ne_nil
    | cons c digits =>
      have hall := hdigits value.toNat
      rw [htext] at hall
      obtain ⟨htoken, hswitch⟩ := readTokenType_digit (hall c List.mem_cons_self) (digits ++ rest)
      refine readToken_append htoken ?_
      rw [hswitch, readNumber_append (fun c hc => hall c (List.mem_cons_of_mem _ hc)) hrest]

/-- An integer in the range of the reader is decoded. -/
theorem decodeNumber_valueToString {value : Int} (hmin : -2 ^ 63 ≤ value) (hmax : value < 2 ^ 64) :
    decodeNumber toDouble (valueToString value) = some (.ofInteger value) := by
  unfold decodeNumber valueToString Value.ofInteger
  split
  · next hneg =>
    have hdecode : decodeDigits (2 ^ 63) 0 (uintToString (-value).toNat []) =
        some (-value).toNat :=
      decodeDigits_uintToString (by decide) (.inr ⟨rfl, by omega⟩)
    simp only [List.head?_cons, decide_true, if_true, List.tail_cons]
    rw [hdecode]
    dsimp only
    rw [if_pos (by omega), Int.toNat_of_nonneg (by omega), neg_neg]
  · next hneg =>
    have hdecode : decodeDigits (2 ^ 64 - 1) 0 (uintToString value.toNat []) = some value.toNat :=
      decodeDigits_uintToString (by decide) (.inr ⟨rfl, by omega⟩)
    have hhead : (uintToString value.toNat []).head? ≠ some 45 := by
      intro h
      have := isDigit_of_mem_uintToString (fun c hc => by cases hc) (List.mem_of_mem_head? h)
      cases this
    simp only [hhead, decide_false, Bool.false_eq_true, if_false]
    rw [hdecode]
    dsimp only
    by_cases hint : value < 2 ^ 31
    · rw [if_pos hint, if_pos (by omega), Int.toNat_of_nonneg (by omega)]
    · rw [if_neg hint, if_neg (by omega)]

theorem int {value : Int} (hmin : -2 ^ 63 ≤ value) (hmax : value < 2 ^ 64) :
    Spells toDouble 1 (valueToString value) (.ofInteger value) := by
  refine of_token ⟨.number, valueToString value⟩ (fun h => by cases h) ?_
    (fun rest hrest => readToken_valueToString value hrest) fun _ _ _ _ htoken => ?_
  · have hzero : ∀ n, 0 ∉ uintToString n [] := fun n h => by
      cases isDigit_of_mem_uintToString (fun c hc => by cases hc) h
    unfold valueToString
    split
    · exact List.not_mem_cons_of_ne_of_not_mem (by decide) (hzero _)
    · exact hzero _
  · rw [readValue, htoken]
    dsimp only
    rw [decodeNumber_valueToString hmin hmax]

end Spells

/-! ## Arrays -/

/-- The loop ends at a bracket. -/
theorem readElements_last {read : ValueReader} {rest rest' : Bytes} {token : Token} {fuel : Nat}
    {before : List Value} (hindex : before.length < 2 ^ 31)
    (hread : read .null text = .ok (v, true, rest))
    (htoken : skipCommentTokens rest = (token, rest')) (htype : token.type = .arrayEnd) :
    readElements read (fuel + 1) before text = .ok (before ++ [v], true, rest') := by
  rw [readElements, if_neg (Nat.not_le.mpr hindex), hread]
  dsimp only [bind, Except.bind]
  rw [htoken]
  simp [htype]
  rfl

/-- It goes on at a comma. -/
theorem readElements_cons {read : ValueReader} {rest rest' : Bytes} {token : Token} {fuel : Nat}
    {before : List Value} (hindex : before.length < 2 ^ 31)
    (hread : read .null text = .ok (v, true, rest))
    (htoken : skipCommentTokens rest = (token, rest')) (htype : token.type = .arraySeparator) :
    readElements read (fuel + 1) before text = readElements read fuel (before ++ [v]) rest' := by
  rw [readElements, if_neg (Nat.not_le.mpr hindex), hread]
  dsimp only [bind, Except.bind]
  rw [htoken]
  simp [htype]

namespace SpellsElements

theorem mono (h : SpellsElements toDouble n text values) (hle : n ≤ m) :
    SpellsElements toDouble m text values :=
  ⟨fun left fuel before rest hleft => h.reads left fuel before rest (hle.trans hleft),
    h.zero_notMem, h.begins⟩

/-- Blanks may stand before the elements. -/
theorem blank_append (h : SpellsElements toDouble n text values) (hb : IsBlank b) :
    SpellsElements toDouble n (b ++ text) values where
  reads left fuel before rest hleft hindex hfuel := by
    obtain ⟨fuel, rfl⟩ := Nat.exists_eq_succ_of_ne_zero (Nat.ne_of_gt (Nat.zero_lt_of_lt hfuel))
    rw [skipSpaces_blank_append hb] at hfuel
    rw [List.append_assoc, readElements, ← readValue_skipSpaces, skipSpaces_blank_append hb,
      readValue_skipSpaces, ← readElements, h.reads left _ before rest hleft hindex hfuel]
  zero_notMem := fun hmem => (List.mem_append.mp hmem).elim hb.zero_notMem h.zero_notMem
  begins := by
    rw [skipSpaces_blank_append hb]
    exact h.begins

/-- The last element. -/
theorem last (h : Spells toDouble n text v) (hb : IsBlank b) :
    SpellsElements toDouble n (text ++ (b ++ [93])) [v] where
  reads left fuel before rest hleft hindex hfuel := by
    obtain ⟨fuel, rfl⟩ := Nat.exists_eq_succ_of_ne_zero (Nat.ne_of_gt (Nat.zero_lt_of_lt hfuel))
    have hends : EndsNumber (b ++ 93 :: rest) := .blank_append hb (.of_cons (by decide) rest)
    have htoken : skipCommentTokens (b ++ 93 :: rest) = (⟨.arrayEnd, [93]⟩, rest) := by
      refine skipCommentTokens_of_readToken ?_ (fun h => by cases h)
      rw [readToken_blank_append hb]
      exact readToken_single (by decide) rfl
    rw [List.append_assoc, List.append_assoc, List.singleton_append]
    exact readElements_last hindex (h.reads left .null _ hleft hends) htoken rfl
  zero_notMem := by
    simp only [List.mem_append, List.mem_singleton, not_or]
    exact ⟨h.zero_notMem, hb.zero_notMem, by decide⟩
  begins := begins_append h.begins _

/-- Another element. -/
theorem cons (h : Spells toDouble n text v) (hb : IsBlank b)
    (ht : SpellsElements toDouble n texts values) :
    SpellsElements toDouble n (text ++ (b ++ 44 :: texts)) (v :: values) where
  reads left fuel before rest hleft hindex hfuel := by
    obtain ⟨fuel, rfl⟩ := Nat.exists_eq_succ_of_ne_zero (Nat.ne_of_gt (Nat.zero_lt_of_lt hfuel))
    have hends : EndsNumber (b ++ 44 :: (texts ++ rest)) :=
      .blank_append hb (.of_cons (by decide) _)
    have htoken : skipCommentTokens (b ++ 44 :: (texts ++ rest)) =
        (⟨.arraySeparator, [44]⟩, texts ++ rest) := by
      refine skipCommentTokens_of_readToken ?_ (fun h => by cases h)
      rw [readToken_blank_append hb]
      exact readToken_single (by decide) rfl
    rw [List.length_cons] at hindex
    rw [List.append_assoc, List.append_assoc, List.cons_append,
      readElements_cons (by omega) (h.reads left .null _ hleft hends) htoken rfl,
      ht.reads left fuel _ rest hleft (by rw [List.length_append, List.length_singleton]; omega),
      List.append_assoc, List.singleton_append]
    obtain ⟨c, after, heq, -⟩ := h.begins
    have hle := (skipSpaces_suffix texts).length_le
    rw [skipSpaces_append heq] at hfuel
    simp only [List.length_append, List.length_cons] at hfuel
    omega
  zero_notMem := by
    simp only [List.mem_append, List.mem_cons, not_or]
    exact ⟨h.zero_notMem, hb.zero_notMem, by decide, ht.zero_notMem⟩
  begins := begins_append h.begins _

end SpellsElements

namespace Spells

theorem array_nil : Spells toDouble 1 (bytes "[]") (.array []) where
  reads left current rest hleft hrest := by
    obtain ⟨left, rfl⟩ := Nat.exists_eq_add_of_le' hleft
    have htoken : skipCommentTokens (91 :: 93 :: rest) = (⟨.arrayBegin, [91]⟩, 93 :: rest) :=
      skipCommentTokens_of_readToken (readToken_single (by decide) rfl)
        (fun h => by cases h)
    change readValue toDouble (left + 1) current (91 :: 93 :: rest) = _
    rw [readValue, htoken]
    dsimp only
    rw [readArray, skipSpaces_cons (by decide)]
    rfl
  zero_notMem := by decide

theorem array (h : SpellsElements toDouble n text values) (hindex : values.length ≤ 2 ^ 31) :
    Spells toDouble (n + 1) (91 :: text) (.array values) where
  reads left current rest hleft hrest := by
    obtain ⟨left, rfl⟩ := Nat.exists_eq_succ_of_ne_zero (Nat.ne_of_gt (Nat.zero_lt_of_lt hleft))
    have htoken : skipCommentTokens (91 :: (text ++ rest)) =
        (⟨.arrayBegin, [91]⟩, text ++ rest) :=
      skipCommentTokens_of_readToken (readToken_single (by decide) rfl)
        (fun h => by cases h)
    obtain ⟨c, after, heq, hc⟩ := h.begins
    have hskip := skipSpaces_append heq rest
    have hread := h.reads left ((skipSpaces (text ++ rest)).length + 1) [] rest
      (Nat.le_of_succ_le_succ hleft) (by rwa [List.length_nil, Nat.zero_add])
      (by rw [hskip, heq, List.length_append]; omega)
    rw [readElements, ← readValue_skipSpaces, ← readElements] at hread
    rw [List.cons_append, readValue, htoken]
    dsimp only
    rw [readArray]
    dsimp only
    rw [if_neg (by rw [hskip]; simpa using hc), hread]
    rfl
  zero_notMem := List.not_mem_cons_of_ne_of_not_mem (by decide) h.zero_notMem

end Spells

/-! ## Objects -/

/-- A member whose value is read: the loop goes on behind it. -/
theorem readMembers_member {read : ValueReader} {rest : Bytes} (fuel : Nat)
    (before : List (Bytes × Value)) (previous : Bytes) (hname : name.length < 2 ^ 30)
    (hb : IsBlank b) (hcolon : IsBlank colon)
    (hread : ∀ current, read current text = .ok (v, true, rest)) :
    readMembers read (fuel + 1) before previous
        (b ++ (valueToQuotedStringN name ++ (colon ++ 58 :: text))) =
      let members := OrderedMap.insert before name v
      if (readToken rest).1.type ≠ .objectEnd ∧ (readToken rest).1.type ≠ .arraySeparator ∧
          (readToken rest).1.type ≠ .comment then
        .ok (members, false, recoverFromError .objectEnd (readToken rest).2)
      else if (skipCommentTokens rest).1.type = .objectEnd then
        .ok (members, true, (skipCommentTokens rest).2)
      else readMembers read fuel members name (skipCommentTokens rest).2 := by
  have htoken : skipCommentTokens (b ++ (valueToQuotedStringN name ++ (colon ++ 58 :: text))) =
      (⟨.string, valueToQuotedStringN name⟩, colon ++ 58 :: text) := by
    refine skipCommentTokens_of_readToken ?_ (fun h => by cases h)
    rw [readToken_blank_append hb, readToken_quoted]
  have hseparator : readToken (colon ++ 58 :: text) = (⟨.memberSeparator, [58]⟩, text) := by
    rw [readToken_blank_append hcolon]
    exact readToken_single (by decide) rfl
  rw [readMembers, htoken]
  dsimp only
  rw [if_neg (fun h => by cases h.1), if_neg (fun h => h rfl), decodeString_quoted]
  dsimp only
  rw [hseparator]
  dsimp only
  rw [if_neg (fun h => h rfl), hread, czString_of_lt hname]
  rfl

namespace SpellsMembers

variable {after : Bytes}

theorem mono (h : SpellsMembers toDouble n text members) (hle : n ≤ m) :
    SpellsMembers toDouble m text members :=
  ⟨fun left fuel before previous rest hleft =>
    h.reads left fuel before previous rest (hle.trans hleft), h.zero_notMem⟩

/-- The last member. -/
theorem last (hname : name.length < 2 ^ 30) (hb : IsBlank b) (hcolon : IsBlank colon)
    (h : Spells toDouble n text v) (hafter : IsBlank after) :
    SpellsMembers toDouble n
      (b ++ (valueToQuotedStringN name ++ (colon ++ 58 :: (text ++ (after ++ [125])))))
      [(name, v)] where
  reads left fuel before previous rest hleft hfuel := by
    obtain ⟨fuel, rfl⟩ := Nat.exists_eq_succ_of_ne_zero (Nat.ne_of_gt (Nat.zero_lt_of_lt hfuel))
    have hends : EndsNumber (after ++ 125 :: rest) :=
      .blank_append hafter (.of_cons (by decide) rest)
    have htoken : readToken (after ++ 125 :: rest) = (⟨.objectEnd, [125]⟩, rest) := by
      rw [readToken_blank_append hafter]
      exact readToken_single (by decide) rfl
    have hskip := skipCommentTokens_of_readToken htoken (fun h => by cases h)
    have hread := readMembers_member fuel before previous hname hb hcolon
      fun current => h.reads left current _ hleft hends
    simp only [List.append_assoc, List.cons_append, List.nil_append]
    rw [hread, htoken, hskip]
    rfl
  zero_notMem := by
    simp only [List.mem_append, List.mem_cons, List.not_mem_nil, or_false, not_or]
    exact ⟨hb.zero_notMem, zero_notMem_quoted name, hcolon.zero_notMem, by decide, h.zero_notMem,
      hafter.zero_notMem, by decide⟩

/-- Another member. -/
theorem cons (hname : name.length < 2 ^ 30) (hb : IsBlank b) (hcolon : IsBlank colon)
    (h : Spells toDouble n text v) (hafter : IsBlank after)
    (ht : SpellsMembers toDouble n texts members) :
    SpellsMembers toDouble n
      (b ++ (valueToQuotedStringN name ++ (colon ++ 58 :: (text ++ (after ++ 44 :: texts)))))
      ((name, v) :: members) where
  reads left fuel before previous rest hleft hfuel := by
    obtain ⟨fuel, rfl⟩ := Nat.exists_eq_succ_of_ne_zero (Nat.ne_of_gt (Nat.zero_lt_of_lt hfuel))
    have hends : EndsNumber (after ++ 44 :: (texts ++ rest)) :=
      .blank_append hafter (.of_cons (by decide) _)
    have htoken : readToken (after ++ 44 :: (texts ++ rest)) =
        (⟨.arraySeparator, [44]⟩, texts ++ rest) := by
      rw [readToken_blank_append hafter]
      exact readToken_single (by decide) rfl
    have hskip := skipCommentTokens_of_readToken htoken (fun h => by cases h)
    have hread := readMembers_member fuel before previous hname hb hcolon
      fun current => h.reads left current _ hleft hends
    simp only [List.length_append, List.length_cons] at hfuel
    simp only [List.append_assoc, List.cons_append, List.foldl_cons]
    rw [hread, htoken, hskip]
    exact ht.reads left fuel _ name rest hleft (by omega)
  zero_notMem := by
    simp only [List.mem_append, List.mem_cons, not_or]
    exact ⟨hb.zero_notMem, zero_notMem_quoted name, hcolon.zero_notMem, by decide, h.zero_notMem,
      hafter.zero_notMem, by decide, ht.zero_notMem⟩

end SpellsMembers

namespace Spells

theorem object_nil : Spells toDouble 1 (bytes "\x7b\x7d") (.object []) where
  reads left current rest hleft hrest := by
    obtain ⟨left, rfl⟩ := Nat.exists_eq_add_of_le' hleft
    have htoken : skipCommentTokens (123 :: 125 :: rest) = (⟨.objectBegin, [123]⟩, 125 :: rest) :=
      skipCommentTokens_of_readToken (readToken_single (by decide) rfl)
        (fun h => by cases h)
    have hend : skipCommentTokens (125 :: rest) = (⟨.objectEnd, [125]⟩, rest) :=
      skipCommentTokens_of_readToken (readToken_single (by decide) rfl)
        (fun h => by cases h)
    change readValue toDouble (left + 1) current (123 :: 125 :: rest) = _
    rw [readValue, htoken]
    dsimp only
    rw [readObject, readMembers, hend]
    rfl
  zero_notMem := by decide

/-- The members are those of the object where they are in the order of their names. -/
theorem object (h : SpellsMembers toDouble n text members)
    (hsorted : (members.map Prod.fst).Pairwise (· < ·)) :
    Spells toDouble (n + 1) (123 :: text) (.object members) where
  reads left current rest hleft hrest := by
    obtain ⟨left, rfl⟩ := Nat.exists_eq_succ_of_ne_zero (Nat.ne_of_gt (Nat.zero_lt_of_lt hleft))
    have htoken : skipCommentTokens (123 :: (text ++ rest)) =
        (⟨.objectBegin, [123]⟩, text ++ rest) :=
      skipCommentTokens_of_readToken (readToken_single (by decide) rfl)
        (fun h => by cases h)
    have hread := h.reads left ((text ++ rest).length + 1) [] [] rest
      (Nat.le_of_succ_le_succ hleft) (by rw [List.length_append]; omega)
    rw [OrderedMap.foldl_insert_of_pairwise hsorted] at hread
    rw [List.cons_append, readValue, htoken]
    dsimp only
    rw [readObject, hread]
    rfl
  zero_notMem := List.not_mem_cons_of_ne_of_not_mem (by decide) h.zero_notMem

end Spells

end Spells

end MosqCluster.Json
