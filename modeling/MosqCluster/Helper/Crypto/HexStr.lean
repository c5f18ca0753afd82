import MosqCluster.Helper.XString

/-!
# Hexadecimal text

`helper/crypto/hexstr.cpp`. A text of odd length has its first byte in one character, whose index
into the table is signed; every other byte has two characters. What is not a digit is read as zero.

## Main definitions

* `bytes2HexStr` and `hexStr2Bytes`;
* `pairBytes`: the bytes of pairs of characters;
* `upperCase`: the digits as they are written.

## Main results

* `hexStr2Bytes_eq`: what is read, without an access outside the text;
* `hexStr2Bytes_bytes2HexStr`: what is written is read back;
* `hexStr_inverse`: and what is read from digits is written with as many of them, or one more.
-/

namespace MosqCluster

/-- A digit of `hexchartbl`. -/
def hexDigit (n : UInt8) : UInt8 := if n < 10 then 48 + n else 55 + n

/-- `Bytes2HexStr`. -/
def bytes2HexStr (s : Bytes) : Bytes := s.flatMap fun b => [hexDigit (b / 16), hexDigit (b % 16)]

/-- `hextbl`. -/
def hextbl (ch : UInt8) : UInt8 :=
  if 48 ≤ ch && ch ≤ 57 then ch - 48
  else if 65 ≤ ch && ch ≤ 70 then ch - 55
  else if 97 ≤ ch && ch ≤ 102 then ch - 87
  else 0

/-- `Char2Byte`. -/
def char2Byte (hi lo : UInt8) : UInt8 := (hextbl hi <<< 4) ||| hextbl lo

/-- The loop of `HexStr2Bytes` from an offset on, for as many turns as are left. -/
def hexLoop (str : Bytes) : Nat → Nat → Option Bytes
  | 0, _ => some []
  | turns + 1, oft =>
    match str[oft]?, str[oft + 1]? with
    | some hi, some lo => (hexLoop str turns (oft + 2)).map (char2Byte hi lo :: ·)
    | _, _ => none

/-- `HexStr2Bytes`; `none` is an access outside the text or the table. -/
def hexStr2Bytes (str : Bytes) : Option Bytes :=
  let odd : Bool := str.length % 2 ≠ 0
  let total := str.length / 2 + if odd then 1 else 0
  if odd then
    match str[0]? with
    | some ch =>
      -- a character from 128 on is a negative index into the table
      if 128 ≤ ch then none else (hexLoop str (total - 1) 1).map (hextbl ch :: ·)
    | none => none
  else hexLoop str total 0

/-- The bytes of pairs of characters. -/
def pairBytes : Bytes → Bytes
  | hi :: lo :: rest => char2Byte hi lo :: pairBytes rest
  | _ => []

/-- Two digits for every byte. -/
theorem length_bytes2HexStr (s : Bytes) : (bytes2HexStr s).length = 2 * s.length := by
  induction s with
  | nil => rfl
  | cons b s ih =>
    simp only [bytes2HexStr, List.flatMap_cons, List.length_append, List.length_cons] at ih ⊢
    simp only [ih, List.length_nil]
    omega

/-- One byte for every pair. -/
theorem length_pairBytes (str : Bytes) : (pairBytes str).length = str.length / 2 := by
  fun_induction pairBytes str with
  | case1 hi lo rest ih =>
    rw [List.length_cons, ih, List.length_cons, List.length_cons]
    omega
  | case2 str hshort =>
    match str with
    | [] => rfl
    | [_] => simp
    | hi :: lo :: rest => exact absurd rfl (hshort hi lo rest)

/-- The loop reads the pairs from the offset on. -/
theorem hexLoop_eq {str : Bytes} {turns oft : Nat} (h : oft + 2 * turns = str.length) :
    hexLoop str turns oft = some (pairBytes (str.drop oft)) := by
  induction turns generalizing oft with
  | zero =>
    rw [List.drop_eq_nil_of_le (by omega)]
    rfl
  | succ turns ih =>
    have hhi : oft < str.length := by omega
    have hlo : oft + 1 < str.length := by omega
    rw [hexLoop, List.getElem?_eq_getElem hhi, List.getElem?_eq_getElem hlo,
      ih (by omega), List.drop_eq_getElem_cons hhi, List.drop_eq_getElem_cons hlo]
    rfl

/-- What is read from a text of ASCII characters: all accesses are within the text. -/
theorem hexStr2Bytes_eq {str : Bytes} (h : ∀ b ∈ str, b < 128) :
    hexStr2Bytes str =
      some (if str.length % 2 = 0 then pairBytes str
        else (str.take 1).map hextbl ++ pairBytes (str.drop 1)) := by
  unfold hexStr2Bytes
  by_cases heven : str.length % 2 = 0
  · simp only [heven, ne_eq, not_true_eq_false, decide_false, Bool.false_eq_true, if_false, if_true,
      Nat.add_zero]
    rw [hexLoop_eq (by omega), List.drop_zero]
  · simp only [heven, ne_eq, not_false_eq_true, decide_true, if_true, if_false,
      Nat.add_sub_cancel]
    cases str with
    | nil => exact absurd rfl heven
    | cons ch str =>
      have hch : ¬ 128 ≤ ch := UInt8.not_le.mpr (h ch List.mem_cons_self)
      rw [hexLoop_eq (by rw [List.length_cons] at heven ⊢; omega)]
      simp only [List.getElem?_cons_zero, if_neg hch, Option.map_some]
      rfl

/-- Half a byte for every character. -/
theorem length_of_hexStr2Bytes {str bytes : Bytes} (h : ∀ b ∈ str, b < 128)
    (hread : hexStr2Bytes str = some bytes) : bytes.length = (str.length + 1) / 2 := by
  rw [hexStr2Bytes_eq h] at hread
  obtain rfl := Option.some.inj hread
  split_ifs with heven
  · rw [length_pairBytes]
    omega
  · rw [List.length_append, List.length_map, List.length_take, length_pairBytes, List.length_drop]
    omega

/-- The digits of a byte. -/
theorem char2Byte_hexDigit (b : UInt8) :
    hexDigit (b / 16) < 128 ∧ hexDigit (b % 16) < 128 ∧
      char2Byte (hexDigit (b / 16)) (hexDigit (b % 16)) = b := by
  have hall : ∀ n : Fin 256, hexDigit (.ofFin n / 16) < 128 ∧ hexDigit (.ofFin n % 16) < 128 ∧
      char2Byte (hexDigit (.ofFin n / 16)) (hexDigit (.ofFin n % 16)) = .ofFin n := by
    decide +kernel
  exact hall b.toFin

/-- What is written is read back. -/
theorem hexStr2Bytes_bytes2HexStr (s : Bytes) : hexStr2Bytes (bytes2HexStr s) = some s := by
  have hascii : ∀ b ∈ bytes2HexStr s, b < 128 := by
    intro b hb
    obtain ⟨b', -, hb⟩ := List.mem_flatMap.mp hb
    have hdigit := char2Byte_hexDigit b'
    rcases List.mem_cons.mp hb with rfl | hb
    · exact hdigit.1
    · rw [List.mem_singleton.mp hb]
      exact hdigit.2.1
  have hpairs : pairBytes (bytes2HexStr s) = s := by
    induction s with
    | nil => rfl
    | cons b s ih =>
      have hih := ih fun b' hb' => hascii b' (List.mem_append_right _ hb')
      show pairBytes (hexDigit (b / 16) :: hexDigit (b % 16) :: bytes2HexStr s) = b :: s
      rw [pairBytes, (char2Byte_hexDigit b).2.2, hih]
  rw [hexStr2Bytes_eq hascii, length_bytes2HexStr, if_pos (Nat.mul_mod_right ..), hpairs]

/-! ## The text of what is read -/

/-- The hexadecimal digits. -/
def hexDigits : Bytes := bytes "0123456789abcdefABCDEF"

/-- A letter in upper case. -/
def upperChar (ch : UInt8) : UInt8 := if 97 ≤ ch && ch ≤ 122 then ch - 32 else ch

/-- A text in upper case. -/
def upperCase (h : Bytes) : Bytes := h.map upperChar

section Digits

variable {h : Bytes} {hi lo : UInt8}

theorem lt_of_mem_hexDigits (hmem : hi ∈ hexDigits) : hi < 128 := by
  have hall : hexDigits.all (· < 128) = true := by decide
  simpa using List.all_eq_true.mp hall hi hmem

/-- The text of one digit. -/
theorem bytes2HexStr_hextbl (hmem : hi ∈ hexDigits) :
    bytes2HexStr [hextbl hi] = [48, upperChar hi] := by
  have hall : (hexDigits.all fun hi => bytes2HexStr [hextbl hi] = [48, upperChar hi]) = true := by
    decide +kernel
  simpa using List.all_eq_true.mp hall hi hmem

/-- The text of two digits. -/
theorem bytes2HexStr_char2Byte (hhi : hi ∈ hexDigits) (hlo : lo ∈ hexDigits) :
    bytes2HexStr [char2Byte hi lo] = [upperChar hi, upperChar lo] := by
  have hall : (hexDigits.all fun hi => hexDigits.all fun lo =>
      bytes2HexStr [char2Byte hi lo] = [upperChar hi, upperChar lo]) = true := by
    decide +kernel
  have hpair := List.all_eq_true.mp (List.all_eq_true.mp hall hi hhi) lo hlo
  simpa using hpair

theorem bytes2HexStr_cons (b : UInt8) (s : Bytes) :
    bytes2HexStr (b :: s) = bytes2HexStr [b] ++ bytes2HexStr s := rfl

/-- The text of pairs of digits. -/
theorem bytes2HexStr_pairBytes (heven : h.length % 2 = 0) (hdigits : ∀ ch ∈ h, ch ∈ hexDigits) :
    bytes2HexStr (pairBytes h) = upperCase h := by
  fun_induction pairBytes h with
  | case1 hi lo rest ih =>
    have heven' : rest.length % 2 = 0 := by
      rw [List.length_cons, List.length_cons] at heven
      omega
    have hhi := hdigits hi List.mem_cons_self
    have hlo := hdigits lo (List.mem_cons_of_mem _ List.mem_cons_self)
    have hrest := ih heven' fun ch hch =>
      hdigits ch (List.mem_cons_of_mem _ (List.mem_cons_of_mem _ hch))
    rw [bytes2HexStr_cons, bytes2HexStr_char2Byte hhi hlo, hrest]
    rfl
  | case2 h hshort =>
    match h with
    | [] => rfl
    | [_] => exact absurd heven (by simp)
    | hi :: lo :: rest => exact absurd rfl (hshort hi lo rest)

/-- What is written is read back, and what is read from digits is written in upper case; a text of
odd length gets a zero in front. -/
theorem hexStr_inverse :
    (∀ s, hexStr2Bytes (bytes2HexStr s) = some s) ∧
      ∀ h : Bytes, (∀ ch ∈ h, ch ∈ hexDigits) →
        (hexStr2Bytes h).map bytes2HexStr =
          some (if h.length % 2 = 0 then upperCase h else 48 :: upperCase h) := by
  refine ⟨hexStr2Bytes_bytes2HexStr, fun h hdigits => ?_⟩
  rw [hexStr2Bytes_eq fun ch hch => lt_of_mem_hexDigits (hdigits ch hch), Option.map_some]
  split_ifs with heven
  · rw [bytes2HexStr_pairBytes heven hdigits]
  · match h, heven with
    | ch :: rest, hodd =>
      have heven' : rest.length % 2 = 0 := by
        rw [List.length_cons] at hodd
        omega
      have hrest := bytes2HexStr_pairBytes heven' fun c hc =>
        hdigits c (List.mem_cons_of_mem _ hc)
      rw [List.take_one, List.head?_cons, Option.toList_some, List.map_singleton,
        List.singleton_append, List.drop_one, List.tail_cons, bytes2HexStr_cons,
        bytes2HexStr_hextbl (hdigits ch List.mem_cons_self), hrest]
      rfl

/-- A text of odd length, with letters of both cases. -/
theorem hexStr_inverse_odd :
    (hexStr2Bytes (bytes "aBc")).map bytes2HexStr = some (bytes "0ABC") :=
  hexStr_inverse.2 (bytes "aBc") (by
    have hall : (bytes "aBc").all (hexDigits.contains ·) = true := by decide
    simpa using hall)

end Digits

end MosqCluster
