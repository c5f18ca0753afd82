import Mathlib.Data.List.Basic
import MosqCluster.Foundation.Execution
import MosqCluster.Helper.Crypto.HexStr
import MosqCluster.Helper.UrlEncode

/-!
# URL escapes

`UrlEncode` of `helper/url_encode.cpp`, the loop of `UrlDecode`, and what an escape is: a percent
sign and two hexadecimal digits. A text is scanned from the left. Where an escape starts, it is one
unit of the text; every other byte is a unit by itself.

## Main definitions

* `urlEncode` and `urlDecodeLoop`;
* `urlEscape.Part` and `urlEscape.Scan`: the units of a text.

## Main results

* `returns_urlDecodeLoop`: no access of the loop is outside the text;
* `urlEscape.exists_scan` and `urlEscape.Scan.unique`: a text is scanned in one way;
* `urlDecode_urlEncode`: what is encoded is decoded again;
* `urlDecode_roundTrip`: both directions, and what `UrlDecode` gives for any text.
-/

namespace MosqCluster

set_option maxRecDepth 2048 in
/-- `encode_table`. -/
def encodeTable : List Bytes :=
  ["%00", "%01", "%02", "%03", "%04", "%05", "%06", "%07", "%08", "%09", "%0A", "%0B", "%0C",
    "%0D", "%0E", "%0F", "%10", "%11", "%12", "%13", "%14", "%15", "%16", "%17", "%18", "%19",
    "%1A", "%1B", "%1C", "%1D", "%1E", "%1F", "%20", "!", "%22", "%23", "%24", "%25", "%26", "%27",
    "(", ")", "*", "%2B", "%2C", "%2D", ".", "%2F", "0", "1", "2", "3", "4", "5", "6", "7", "8",
    "9", "%3A", "%3B", "%3C", "%3D", "%3E", "%3F", "%40", "A", "B", "C", "D", "E", "F", "G", "H",
    "I", "J", "K", "L", "M", "N", "O", "P", "Q", "R", "S", "T", "U", "V", "W", "X", "Y", "Z",
    "%5B", "%5C", "%5D", "%5E", "_", "%60", "a", "b", "c", "d", "e", "f", "g", "h", "i", "j", "k",
    "l", "m", "n", "o", "p", "q", "r", "s", "t", "u", "v", "w", "x", "y", "z", "%7B", "%7C", "%7D",
    "~", "%7F", "%80", "%81", "%82", "%83", "%84", "%85", "%86", "%87", "%88", "%89", "%8A", "%8B",
    "%8C", "%8D", "%8E", "%8F", "%90", "%91", "%92", "%93", "%94", "%95", "%96", "%97", "%98",
    "%99", "%9A", "%9B", "%9C", "%9D", "%9E", "%9F", "%A0", "%A1", "%A2", "%A3", "%A4", "%A5",
    "%A6", "%A7", "%A8", "%A9", "%AA", "%AB", "%AC", "%AD", "%AE", "%AF", "%B0", "%B1", "%B2",
    "%B3", "%B4", "%B5", "%B6", "%B7", "%B8", "%B9", "%BA", "%BB", "%BC", "%BD", "%BE", "%BF",
    "%C0", "%C1", "%C2", "%C3", "%C4", "%C5", "%C6", "%C7", "%C8", "%C9", "%CA", "%CB", "%CC",
    "%CD", "%CE", "%CF", "%D0", "%D1", "%D2", "%D3", "%D4", "%D5", "%D6", "%D7", "%D8", "%D9",
    "%DA", "%DB", "%DC", "%DD", "%DE", "%DF", "%E0", "%E1", "%E2", "%E3", "%E4", "%E5", "%E6",
    "%E7", "%E8", "%E9", "%EA", "%EB", "%EC", "%ED", "%EE", "%EF", "%F0", "%F1", "%F2", "%F3",
    "%F4", "%F5", "%F6", "%F7", "%F8", "%F9", "%FA", "%FB", "%FC", "%FD", "%FE", "%FF"].map bytes

set_option maxRecDepth 2048 in
theorem length_encodeTable : encodeTable.length = 256 := by
  rw [encodeTable, List.length_map]
  rfl

/-- The entry of a character, which is not signed here. -/
def encodeEntry (ch : UInt8) : Bytes :=
  encodeTable.get ⟨ch.toNat, length_encodeTable ▸ ch.toNat_lt⟩

/-- `UrlEncode`. -/
def urlEncode (src : Bytes) : Bytes := src.foldl (fun retval ch => retval ++ encodeEntry ch) []

/-- A turn of the loop of `UrlDecode`: what is appended so far, and `i`. An access outside the text
throws. -/
def urlDecodeTurn (src : Bytes) : Bytes × Nat → Turn (Bytes × Nat) Bytes
  | (retval, i) =>
    if i < src.length then
      match src[i]? with
      | none => .fault
      | some c =>
        if c = 37 ∧ i + 2 < src.length then
          match src[i + 1]?, src[i + 2]? with
          | some hi, some lo =>
            if isHexChar hi && isHexChar lo then
              .next (retval ++ [(char2hex hi <<< 4 &&& 0xf0) ||| (char2hex lo &&& 0x0f)], i + 3)
            else .next (retval ++ [c], i + 1)
          | _, _ => .fault
        else .next (retval ++ [c], i + 1)
    else .done retval

/-- `UrlDecode`, with its loop. -/
def urlDecodeLoop (src : Bytes) : Execution Bytes := .loop (urlDecodeTurn src) ([], 0)

namespace urlEscape

/-- The value of a hexadecimal digit: its position among the digits. -/
def hexValue? (ch : UInt8) : Option Nat :=
  (bytes "0123456789abcdef").idxOf? ch <|> (bytes "0123456789ABCDEF").idxOf? ch

/-- A hexadecimal digit. -/
def Digit := {ch : UInt8 // (hexValue? ch).isSome}

/-- The value of a digit. -/
def Digit.value (d : Digit) : Nat := (hexValue? d.1).get d.2

/-- A unit of a text. -/
inductive Part where
  | escape (hi lo : Digit)
  | copied (b : UInt8)

/-- How a unit is written. -/
def Part.text : Part → Bytes
  | .escape hi lo => [37, hi.1, lo.1]
  | .copied b => [b]

/-- What a unit stands for. -/
def Part.byte : Part → UInt8
  | .escape hi lo => .ofNat (16 * hi.value + lo.value)
  | .copied b => b

/-- An escape starts here. -/
def Starts (t : Bytes) : Prop := ∃ (hi lo : Digit) (rest : Bytes), t = 37 :: hi.1 :: lo.1 :: rest

/-- The units make up the text, and no escape starts where a byte is copied. -/
def Scan : Bytes → List Part → Prop
  | t, [] => t = []
  | t, .escape hi lo :: parts => ∃ rest, t = 37 :: hi.1 :: lo.1 :: rest ∧ Scan rest parts
  | t, .copied b :: parts => ∃ rest, t = b :: rest ∧ ¬ Starts t ∧ Scan rest parts

/-! ## Digits -/

/-- The digits of the source are those of the scan, with their values. -/
theorem isHexChar_eq (ch : UInt8) :
    isHexChar ch = (hexValue? ch).isSome ∧ (char2hex ch).toNat = (hexValue? ch).getD 0 := by
  have hall : ∀ n : Fin 256, isHexChar (.ofFin n) = (hexValue? (.ofFin n)).isSome ∧
      (char2hex (.ofFin n)).toNat = (hexValue? (.ofFin n)).getD 0 := by
    decide +kernel
  exact hall ch.toFin

/-- A character for which `is_hex_char` is true. -/
def digit {ch : UInt8} (h : isHexChar ch = true) : Digit := ⟨ch, (isHexChar_eq ch).1 ▸ h⟩

theorem Digit.isHexChar (d : Digit) : isHexChar d.1 = true := (isHexChar_eq d.1).1.trans d.2

theorem Digit.hexValue?_eq (d : Digit) : hexValue? d.1 = some d.value := (Option.some_get _).symm

theorem Digit.value_eq (d : Digit) {v : Nat} (h : hexValue? d.1 = some v) : d.value = v :=
  Option.some.inj (d.hexValue?_eq.symm.trans h)

theorem Digit.char2hex (d : Digit) : char2hex d.1 = .ofNat d.value := by
  apply UInt8.toNat.inj
  rw [(isHexChar_eq d.1).2, UInt8.toNat_ofNat']
  have hvalue : (hexValue? d.1).getD 0 = d.value := by rw [d.hexValue?_eq, Option.getD_some]
  have hlt := (MosqCluster.char2hex d.1).toNat_lt
  rw [(isHexChar_eq d.1).2, hvalue] at hlt
  rw [hvalue, Nat.mod_eq_of_lt hlt]

theorem Digit.value_lt (d : Digit) : d.value < 16 := by
  have hall : ∀ n : Fin 256, ∀ v ∈ hexValue? (.ofFin n), v < 16 := by decide +kernel
  exact hall d.1.toFin d.value d.hexValue?_eq

/-- The nibbles of an escape are put together. -/
theorem Digit.nibbles (hi lo : Digit) :
    (MosqCluster.char2hex hi.1 <<< 4 &&& 0xf0) ||| (MosqCluster.char2hex lo.1 &&& 0x0f) =
      (Part.escape hi lo).byte := by
  have hall : ∀ m n : Fin 16, ((.ofNat m : UInt8) <<< 4 &&& 0xf0) ||| (.ofNat n &&& 0x0f) =
      (.ofNat (16 * m + n) : UInt8) := by
    decide +kernel
  rw [hi.char2hex, lo.char2hex]
  exact hall ⟨hi.value, hi.value_lt⟩ ⟨lo.value, lo.value_lt⟩

/-! ## The scan of a text -/

section Scan

variable {t rest : Bytes} {parts parts' : List Part} {b : UInt8}

theorem urlDecode_escape (hi lo : Digit) (rest : Bytes) :
    urlDecode (37 :: hi.1 :: lo.1 :: rest) = (Part.escape hi lo).byte :: urlDecode rest := by
  rw [urlDecode, if_pos (by simp [hi.isHexChar, lo.isHexChar]), Digit.nibbles]

theorem urlDecode_of_not_starts (h : ¬ Starts (b :: rest)) :
    urlDecode (b :: rest) = b :: urlDecode rest := by
  apply urlDecode_cons
  rintro hi lo more rfl ⟨rfl, hhi, hlo⟩
  exact h ⟨digit hhi, digit hlo, more, rfl⟩

/-- A unit that is no percent sign by itself is scanned in front of every text. -/
theorem Scan.cons {part : Part} (h : part ≠ .copied 37) (hrest : Scan rest parts) :
    Scan (part.text ++ rest) (part :: parts) := by
  match part, h with
  | .escape hi lo, _ => exact ⟨rest, rfl, hrest⟩
  | .copied b, h =>
    refine ⟨rest, rfl, ?_, hrest⟩
    rintro ⟨hi, lo, more, heq⟩
    exact h (congrArg Part.copied (List.cons.inj heq).1)

/-- A text is scanned. -/
theorem exists_scan (t : Bytes) : ∃ parts, Scan t parts := by
  induction hlen : t.length using Nat.strongRecOn generalizing t with
  | _ n ih =>
    match t with
    | [] => exact ⟨[], rfl⟩
    | b :: rest =>
      -- an escape takes three bytes, and any other unit takes one
      by_cases hstarts : Starts (b :: rest)
      · obtain ⟨hi, lo, more, heq⟩ := hstarts
        obtain ⟨parts, hparts⟩ := ih more.length (by simp [← hlen, heq]; omega) more rfl
        exact ⟨.escape hi lo :: parts, more, heq, hparts⟩
      · obtain ⟨parts, hparts⟩ := ih rest.length (by simp [← hlen]) rest rfl
        exact ⟨.copied b :: parts, rest, rfl, hstarts, hparts⟩

/-- It is scanned in one way. -/
theorem Scan.unique (h : Scan t parts) (h' : Scan t parts') : parts = parts' := by
  induction parts generalizing t parts' with
  | nil =>
    match parts' with
    | [] => rfl
    | .escape hi lo :: _ =>
      obtain ⟨rest, heq, -⟩ := h'
      exact absurd (h.symm.trans heq) (by simp)
    | .copied b :: _ =>
      obtain ⟨rest, heq, -⟩ := h'
      exact absurd (h.symm.trans heq) (by simp)
  | cons part parts ih =>
    match part, parts' with
    | .escape hi lo, [] =>
      obtain ⟨rest, heq, -⟩ := h
      exact absurd (h'.symm.trans heq) (by simp)
    | .copied b, [] =>
      obtain ⟨rest, heq, -⟩ := h
      exact absurd (h'.symm.trans heq) (by simp)
    | .escape hi lo, .escape hi' lo' :: _ =>
      obtain ⟨rest, rfl, hrest⟩ := h
      obtain ⟨rest', heq, hrest'⟩ := h'
      simp only [List.cons.injEq, true_and] at heq
      obtain ⟨hhi, hlo, rfl⟩ := heq
      rw [Subtype.ext hhi, Subtype.ext hlo, ih hrest hrest']
    | .escape hi lo, .copied b :: _ =>
      -- a percent sign is not copied where an escape starts
      obtain ⟨rest, heq, -⟩ := h
      obtain ⟨_, _, hnot, -⟩ := h'
      exact absurd ⟨hi, lo, rest, heq⟩ hnot
    | .copied b, .escape hi lo :: _ =>
      obtain ⟨_, _, hnot, -⟩ := h
      obtain ⟨rest, heq, -⟩ := h'
      exact absurd ⟨hi, lo, rest, heq⟩ hnot
    | .copied b, .copied b' :: _ =>
      obtain ⟨rest, rfl, -, hrest⟩ := h
      obtain ⟨rest', heq, -, hrest'⟩ := h'
      obtain ⟨rfl, rfl⟩ := List.cons.inj heq
      rw [ih hrest hrest']

/-- The bytes of the units are what is decoded. -/
theorem Scan.map_byte (h : Scan t parts) : parts.map Part.byte = urlDecode t := by
  induction parts generalizing t with
  | nil =>
    obtain rfl : t = [] := h
    rfl
  | cons part parts ih =>
    match part, h with
    | .escape hi lo, ⟨rest, heq, hrest⟩ =>
      rw [heq, urlDecode_escape, ← ih hrest]
      rfl
    | .copied b, ⟨rest, heq, hnot, hrest⟩ =>
      subst heq
      rw [urlDecode_of_not_starts hnot, ← ih hrest]
      rfl

end Scan

end urlEscape

open urlEscape

/-! ## The loop -/

section Loop

variable {src rest : Bytes} {i : Nat} {c : UInt8}

theorem getElem?_of_drop {t : Bytes} (h : src.drop i = t) (k : Nat) : src[i + k]? = t[k]? := by
  rw [← h, List.getElem?_drop]

theorem lt_length_of_drop {t : Bytes} {k : Nat} (h : src.drop i = t) (hk : k < t.length) :
    i + k < src.length := by
  rw [← h, List.length_drop] at hk
  omega

/-- A turn at an escape. -/
theorem urlDecodeTurn_escape {hi lo : Digit} (h : src.drop i = 37 :: hi.1 :: lo.1 :: rest)
    (retval : Bytes) :
    urlDecodeTurn src (retval, i) = .next (retval ++ [(Part.escape hi lo).byte], i + 3) := by
  have hlt := lt_length_of_drop h (show 2 < _ by simp)
  have hc : src[i]? = some 37 := getElem?_of_drop h 0
  have hhi : src[i + 1]? = some hi.1 := getElem?_of_drop h 1
  have hlo : src[i + 2]? = some lo.1 := getElem?_of_drop h 2
  rw [urlDecodeTurn, if_pos (by omega), hc]
  dsimp only
  rw [if_pos ⟨rfl, hlt⟩, hhi, hlo]
  dsimp only
  rw [if_pos (by rw [hi.isHexChar, lo.isHexChar]; rfl), Digit.nibbles]

/-- A turn at any other byte. -/
theorem urlDecodeTurn_copy (h : src.drop i = c :: rest) (hnot : ¬ Starts (c :: rest))
    (retval : Bytes) :
    urlDecodeTurn src (retval, i) = .next (retval ++ [c], i + 1) := by
  have hlt : i < src.length := lt_length_of_drop h (show 0 < _ by simp)
  have hc : src[i]? = some c := getElem?_of_drop h 0
  rw [urlDecodeTurn, if_pos hlt, hc]
  dsimp only
  split_ifs with hahead
  · -- two bytes follow, and one of them is not a digit
    obtain ⟨rfl, htwo⟩ := hahead
    have hlength := congrArg List.length h
    match rest with
    | [] => simp at hlength; omega
    | [_] => simp at hlength; omega
    | hi :: lo :: more =>
      have hhi : src[i + 1]? = some hi := getElem?_of_drop h 1
      have hlo : src[i + 2]? = some lo := getElem?_of_drop h 2
      rw [hhi, hlo]
      dsimp only
      rw [if_neg]
      intro hdigits
      rw [Bool.and_eq_true] at hdigits
      exact hnot ⟨digit hdigits.1, digit hdigits.2, more, rfl⟩
  · rfl

/-- The loop decodes what is left of the text, without an access outside it. -/
theorem returns_urlDecodeLoop (src : Bytes) : (urlDecodeLoop src).Returns (urlDecode src) := by
  -- by the units of what is left behind the index
  suffices h : ∀ t parts retval i, Scan t parts → src.drop i = t →
      (Execution.loop (urlDecodeTurn src) (retval, i)).Returns (retval ++ urlDecode t) by
    obtain ⟨parts, hparts⟩ := exists_scan src
    exact h src parts [] 0 hparts rfl
  intro t parts
  induction parts generalizing t with
  | nil =>
    rintro retval i rfl hdrop
    rw [urlDecode, List.append_nil]
    apply Execution.returns_loop_of_done
    rw [urlDecodeTurn, if_neg (Nat.not_lt.mpr (List.drop_eq_nil_iff.mp hdrop))]
  | cons part parts ih =>
    intro retval i hscan hdrop
    cases part with
    | escape hi lo =>
      obtain ⟨rest, rfl, hrest⟩ := hscan
      have hnext : src.drop (i + 3) = rest := by rw [← List.drop_drop, hdrop]; rfl
      rw [Execution.returns_loop_of_next (urlDecodeTurn_escape hdrop retval), urlDecode_escape]
      simpa using ih rest (retval ++ [(Part.escape hi lo).byte]) (i + 3) hrest hnext
    | copied c =>
      obtain ⟨rest, rfl, hnot, hrest⟩ := hscan
      have hnext : src.drop (i + 1) = rest := by rw [← List.drop_drop, hdrop]; rfl
      rw [Execution.returns_loop_of_next (urlDecodeTurn_copy hdrop hnot retval),
        urlDecode_of_not_starts hnot]
      simpa using ih rest (retval ++ [c]) (i + 1) hrest hnext

end Loop

/-! ## The round trip -/

theorem hexValue?_hexDigit {n : UInt8} (h : n < 16) : hexValue? (hexDigit n) = some n.toNat := by
  have hall : ∀ v : Fin 16, hexValue? (hexDigit (.ofNat v)) = some (v : Nat) := by decide
  have hv := hall ⟨n.toNat, UInt8.lt_iff_toNat_lt.mp h⟩
  rwa [UInt8.ofNat_toNat] at hv

/-- An entry of the table is a unit that stands for its index. -/
theorem exists_part_of_encodeEntry (ch : UInt8) :
    ∃ part : Part, part.text = encodeEntry ch ∧ part.byte = ch ∧ part ≠ .copied 37 := by
  have hall : ∀ n : Fin 256, encodeEntry (.ofFin n) = [.ofFin n] ∧ UInt8.ofFin n ≠ 37 ∨
      encodeEntry (.ofFin n) = [37, hexDigit (.ofFin n / 16), hexDigit (.ofFin n % 16)] := by
    decide +kernel
  obtain ⟨hcopy, hne⟩ | hescape := hall ch.toFin
  · exact ⟨.copied ch, hcopy.symm, rfl, by simpa using hne⟩
  · have hhi := hexValue?_hexDigit (n := ch / 16) (by grind)
    have hlo := hexValue?_hexDigit (n := ch % 16) (by grind)
    let hi : Digit := ⟨hexDigit (ch / 16), Option.isSome_of_eq_some hhi⟩
    let lo : Digit := ⟨hexDigit (ch % 16), Option.isSome_of_eq_some hlo⟩
    refine ⟨.escape hi lo, hescape.symm, ?_, by simp⟩
    rw [Part.byte, hi.value_eq hhi, lo.value_eq hlo, UInt8.toNat_div, UInt8.toNat_mod]
    refine (congrArg UInt8.ofNat (Nat.div_add_mod ch.toNat 16)).trans ?_
    exact UInt8.ofNat_toNat

theorem urlEncode_eq (src : Bytes) : urlEncode src = src.flatMap encodeEntry := by
  rw [urlEncode, List.foldl_append_eq_append, List.nil_append, List.flatMap_def]

/-- What is encoded is scanned into the entries. -/
theorem exists_scan_urlEncode (s : Bytes) :
    ∃ parts, Scan (urlEncode s) parts ∧ parts.map Part.byte = s := by
  rw [urlEncode_eq]
  induction s with
  | nil => exact ⟨[], rfl, rfl⟩
  | cons ch s ih =>
    obtain ⟨parts, hscan, hbytes⟩ := ih
    obtain ⟨part, htext, hbyte, hne⟩ := exists_part_of_encodeEntry ch
    refine ⟨part :: parts, ?_, by rw [List.map_cons, hbyte, hbytes]⟩
    rw [List.flatMap_cons, ← htext]
    exact hscan.cons hne

/-- What is encoded is decoded again. -/
theorem urlDecode_urlEncode (s : Bytes) : urlDecode (urlEncode s) = s := by
  obtain ⟨parts, hscan, hbytes⟩ := exists_scan_urlEncode s
  rw [← hscan.map_byte, hbytes]

/-- What is encoded is decoded again, and every text is decoded unit by unit. -/
theorem urlDecode_roundTrip :
    (∀ s, (urlDecodeLoop (urlEncode s)).Returns s) ∧
      ∀ t, ∃ parts, Scan t parts ∧ (∀ parts', Scan t parts' → parts' = parts) ∧
        (urlDecodeLoop t).Returns (parts.map Part.byte) := by
  constructor
  · intro s
    have h := returns_urlDecodeLoop (urlEncode s)
    rwa [urlDecode_urlEncode] at h
  · intro t
    obtain ⟨parts, hscan⟩ := exists_scan t
    refine ⟨parts, hscan, fun parts' hscan' => hscan'.unique hscan, ?_⟩
    rw [hscan.map_byte]
    exact returns_urlDecodeLoop t

end MosqCluster
