import MosqCluster.Helper.XString
import Mathlib.Tactic.Ring

/-!
# Conversions between wide characters and UTF-8

`WcharFromUtf8`, `WcharToUtf8`, `Unicode::FromUtf8` and `Utf8::FromUnicode` of
`helper/string_convert.cpp`, for a `wchar_t` of 32 bits. A code point is not negative, so wide
characters and the bytes that are promoted to `int` are natural numbers here; the remaining length
of a string and the size of the output are `int`s.

A character of two bytes is written with a first byte from `0xc2` on, which the reader takes for the
first of three. For one of five bytes the reader takes the two highest bits from the remaining
length in place of the first byte.

## Main definitions

* `wcharFromUtf8`, `wcharToUtf8`, `Unicode.fromUtf8` and `Utf8.fromUnicode`;
* `Survives`: the code points that come back.

## Main results

* `wcharFromUtf8_encode`: what is read of one character that was written;
* `roundTripsUtf8_iff`: which sequences come back.
-/

namespace MosqCluster

/-! ## One character -/

/-- What `WcharFromUtf8` returns and stores in `wch`. -/
inductive Decoded
  | noneInput
  | invalidInput
  | char (count wch : Nat)
  deriving DecidableEq, Repr

/-- The byte at an index, as an `int`. Behind the string is the zero byte. -/
def byteAt (utf8 : Bytes) (k : Nat) : Nat := (utf8.getD k 0).toNat

/-- A byte with its highest bit flipped: the bits of a continuation byte. -/
def contBits (utf8 : Bytes) (k : Nat) : Nat := byteAt utf8 k ^^^ 0x80

/-- The test for a continuation byte. -/
def isCont (utf8 : Bytes) (k : Nat) : Bool := contBits utf8 k < 0x40

/-- `WcharFromUtf8`. -/
def wcharFromUtf8 (utf8 : Bytes) (size : Int) : Decoded :=
  let ch := byteAt utf8 0
  let bits := contBits utf8
  let cont := isCont utf8
  if size = 0 then .noneInput
  else if ch < 0x80 then .char 1 ch
  else if ch < 0xc0 then
    if size < 2 || !cont 1 then .invalidInput
    else .char 2 ((ch &&& 0x1f) <<< 6 ||| bits 1)
  else if ch < 0xf0 then
    if size < 3 then .invalidInput
    else if !(cont 1 && cont 2 && (0xe1 ≤ ch || 0xa0 ≤ byteAt utf8 1)) then .invalidInput
    else .char 3 ((ch &&& 0x0f) <<< 12 ||| bits 1 <<< 6 ||| bits 2)
  else if ch < 0xf8 then
    if size < 4 then .invalidInput
    else if !(cont 1 && cont 2 && cont 3 && (0xf1 ≤ ch || 0x90 ≤ byteAt utf8 1)) then .invalidInput
    else .char 4 ((ch &&& 0x07) <<< 18 ||| bits 1 <<< 12 ||| bits 2 <<< 6 ||| bits 3)
  else if ch < 0xfc then
    if size < 5 then .invalidInput
    else if !(cont 1 && cont 2 && cont 3 && cont 4 && (0xf9 ≤ ch || 0x88 ≤ byteAt utf8 1)) then
      .invalidInput
    else
      -- `size` stands where the other branches have `ch`
      .char 5 ((size.toNat &&& 0x03) <<< 24 ||| bits 1 <<< 18 ||| bits 2 <<< 12 ||| bits 3 <<< 6 |||
        bits 4)
  else if ch < 0xfe then
    if size < 6 then .invalidInput
    else if !(cont 1 && cont 2 && cont 3 && cont 4 && cont 5 &&
        (0xfd ≤ ch || 0x84 ≤ byteAt utf8 1)) then .invalidInput
    else
      .char 6 ((ch &&& 0x01) <<< 30 ||| bits 1 <<< 24 ||| bits 2 <<< 18 ||| bits 3 <<< 12 |||
        bits 4 <<< 6 ||| bits 5)
  else .invalidInput

/-- What `WcharToUtf8` returns, with the bytes that it stores. -/
inductive Encoded
  | invalidInput
  | smallOutput
  | bytes (bs : Bytes)
  deriving DecidableEq, Repr

namespace WcharToUtf8

/-- The byte that a case of the `switch` stores. -/
def cont (wch : Nat) : UInt8 := .ofNat (0x80 ||| (wch &&& 0x3f))

/-- `case 1`; the bytes that are there already follow. -/
def case1 (wch : Nat) (bs : Bytes) : Bytes := .ofNat (wch &&& 0xff) :: bs

/-- `case 2`, which falls through, as do those above it. -/
def case2 (wch : Nat) (bs : Bytes) : Bytes := case1 (wch >>> 6 ||| 0xc0) (cont wch :: bs)

/-- `case 3`. -/
def case3 (wch : Nat) (bs : Bytes) : Bytes := case2 (wch >>> 6 ||| 0x800) (cont wch :: bs)

/-- `case 4`. -/
def case4 (wch : Nat) (bs : Bytes) : Bytes := case3 (wch >>> 6 ||| 0x10000) (cont wch :: bs)

/-- `case 5`. -/
def case5 (wch : Nat) (bs : Bytes) : Bytes := case4 (wch >>> 6 ||| 0x200000) (cont wch :: bs)

/-- `case 6`. -/
def case6 (wch : Nat) (bs : Bytes) : Bytes := case5 (wch >>> 6 ||| 0x4000000) (cont wch :: bs)

end WcharToUtf8

open WcharToUtf8 in
/-- `WcharToUtf8`. -/
def wcharToUtf8 (wch : Nat) (size : Int) : Encoded :=
  if wch < 0x80 then if size < 1 then .smallOutput else .bytes (case1 wch [])
  else if wch < 0x800 then if size < 2 then .smallOutput else .bytes (case2 wch [])
  else if wch < 0x10000 then if size < 3 then .smallOutput else .bytes (case3 wch [])
  else if wch < 0x200000 then if size < 4 then .smallOutput else .bytes (case4 wch [])
  else if wch < 0x4000000 then if size < 5 then .smallOutput else .bytes (case5 wch [])
  else if wch ≤ 0x7fffffff then if size < 6 then .smallOutput else .bytes (case6 wch [])
  else .invalidInput

/-! ## Strings -/

/-- A character that is read has some bytes. -/
theorem pos_of_wcharFromUtf8 {utf8 : Bytes} {size : Int} {count wch : Nat}
    (h : wcharFromUtf8 utf8 size = .char count wch) : 0 < count := by
  unfold wcharFromUtf8 at h
  grind

/-- The loop of `Unicode::FromUtf8`, at offset `i`. `none` is an overflow of `i` or of `len`. -/
def Unicode.fromUtf8Loop (s : Bytes) (i : Nat) (len : Int) (ws : List Nat) : Option (List Nat) :=
  match _ : wcharFromUtf8 (s.drop i) len with
  | .noneInput => some ws
  | .invalidInput => some []
  | .char count wch =>
    if _ : 2 ^ 31 ≤ i + count ∨ len - count < -2 ^ 31 then none
    else fromUtf8Loop s (i + count) (len - count) (ws ++ [wch])
termination_by 2 ^ 31 - i
decreasing_by
  have := pos_of_wcharFromUtf8 ‹_›
  omega

/-- `Unicode::FromUtf8`, of a new `Unicode`. -/
def Unicode.fromUtf8 (s : Bytes) : Option (List Nat) :=
  fromUtf8Loop (cString s) 0 (Int32.ofNat (cString s).length).toInt []

/-- The loop of `Utf8::FromUnicode`, at index `i`. `none` is an overflow of `i`. -/
def Utf8.fromUnicodeLoop (i : Nat) : List Nat → Option Bytes
  | [] => some []
  | wch :: ws =>
    if wch = 0 then some []
    else
      match wcharToUtf8 wch 6 with
      | .bytes bs => if i + 1 < 2 ^ 31 then (fromUnicodeLoop (i + 1) ws).map (bs ++ ·) else none
      | _ => some []

/-- `Utf8::FromUnicode`. -/
def Utf8.fromUnicode (ws : List Nat) : Option Bytes := fromUnicodeLoop 0 ws

/-- A sequence of code points comes back. -/
def RoundTripsUtf8 (ws : List Nat) : Prop :=
  ∃ utf8, Utf8.fromUnicode ws = some utf8 ∧ Unicode.fromUtf8 utf8 = some ws

/-! ## Which sequences come back -/

/-- The number of bytes of a code point. -/
def utf8Size (wch : Nat) : Nat :=
  if wch < 0x80 then 1
  else if wch < 0x800 then 2
  else if wch < 0x10000 then 3
  else if wch < 0x200000 then 4
  else if wch < 0x4000000 then 5
  else 6

/-- The number of bytes of a sequence. -/
def utf8Length (ws : List Nat) : Nat := (ws.map utf8Size).sum

/-- None of the code points has two bytes, and for each one of five bytes, the bytes from it to the
end of the string are as many, modulo four, as its two highest bits say. -/
def Survives : List Nat → Prop
  | [] => True
  | wch :: ws =>
    utf8Size wch ≠ 2 ∧ (utf8Size wch = 5 → utf8Length (wch :: ws) % 4 = wch / 2 ^ 24) ∧ Survives ws

/-! ## Bits -/

/-- A bit above all others is added. -/
theorem shiftRight_or {wch mask i : Nat} (hwch : wch / 2 ^ 6 < 2 ^ i) (hmask : mask % 2 ^ i = 0) :
    wch >>> 6 ||| mask = mask + wch / 2 ^ 6 := by
  have hshift : wch >>> 6 = wch / 2 ^ 6 := Nat.shiftRight_eq_div_pow wch 6
  have hmul : mask = 2 ^ i * (mask / 2 ^ i) := by
    have := Nat.div_add_mod mask (2 ^ i)
    omega
  rw [hshift, Nat.or_comm, hmul, Nat.two_pow_add_eq_or_of_lt hwch]

/-- The bits of a number above `j`, and the six below them. -/
theorem shiftLeft_or (wch j k : Nat) (hj : j = k + 6) :
    (wch / 2 ^ j) <<< j ||| (wch / 2 ^ k % 2 ^ 6) <<< k = (wch / 2 ^ k) <<< k := by
  subst hj
  have hlt : (wch / 2 ^ k % 2 ^ 6) <<< k < 2 ^ (k + 6) := by
    rw [Nat.shiftLeft_eq, pow_add, mul_comm]
    exact Nat.mul_lt_mul_of_pos_left (Nat.mod_lt _ (by decide)) (Nat.two_pow_pos k)
  rw [← Nat.shiftLeft_add_eq_or_of_lt hlt]
  simp only [Nat.shiftLeft_eq, pow_add, ← Nat.div_div_eq_div_mul]
  calc wch / 2 ^ k / 2 ^ 6 * (2 ^ k * 2 ^ 6) + wch / 2 ^ k % 2 ^ 6 * 2 ^ k
      = (2 ^ 6 * (wch / 2 ^ k / 2 ^ 6) + wch / 2 ^ k % 2 ^ 6) * 2 ^ k := by ring
    _ = wch / 2 ^ k * 2 ^ k := by rw [Nat.div_add_mod]

/-- The lowest bits are not shifted. -/
theorem shiftLeft_or_zero (wch : Nat) : (wch / 2 ^ 6) <<< 6 ||| wch / 1 % 2 ^ 6 = wch := by
  have h := shiftLeft_or wch 6 0 rfl
  rw [Nat.div_one]
  rwa [Nat.shiftLeft_zero, Nat.shiftLeft_zero, pow_zero, Nat.div_one] at h

theorem xor_0x80 {x : Nat} (hx : x < 2 ^ 6) : (0x80 + x) ^^^ 0x80 = x := by
  have hall : ∀ x < 2 ^ 6, (0x80 + x) ^^^ 0x80 = x := by decide
  exact hall x hx

/-! ## The bytes of a character -/

/-- The continuation byte with the six bits of a number above `d`. -/
def contByte (wch d : Nat) : UInt8 := .ofNat (0x80 + wch / d % 2 ^ 6)

/-- The bytes of a code point. -/
def encode (wch : Nat) : Bytes :=
  if wch < 0x80 then [.ofNat wch]
  else if wch < 0x800 then [.ofNat (0xc0 + wch / 2 ^ 6), contByte wch 1]
  else if wch < 0x10000 then
    [.ofNat (0xe0 + wch / 2 ^ 12), contByte wch (2 ^ 6), contByte wch 1]
  else if wch < 0x200000 then
    [.ofNat (0xf0 + wch / 2 ^ 18), contByte wch (2 ^ 12), contByte wch (2 ^ 6), contByte wch 1]
  else if wch < 0x4000000 then
    [.ofNat (0xf8 + wch / 2 ^ 24), contByte wch (2 ^ 18), contByte wch (2 ^ 12),
      contByte wch (2 ^ 6), contByte wch 1]
  else
    [.ofNat (0xfc + wch / 2 ^ 30), contByte wch (2 ^ 24), contByte wch (2 ^ 18),
      contByte wch (2 ^ 12), contByte wch (2 ^ 6), contByte wch 1]

/-- The ranges of the code points, and their bytes. -/
theorem encode_cases (wch : Nat) :
    (wch < 0x80 ∧ utf8Size wch = 1 ∧ encode wch = [.ofNat wch]) ∨
    ((0x80 ≤ wch ∧ wch < 0x800) ∧ utf8Size wch = 2 ∧
      encode wch = [.ofNat (0xc0 + wch / 2 ^ 6), contByte wch 1]) ∨
    ((0x800 ≤ wch ∧ wch < 0x10000) ∧ utf8Size wch = 3 ∧
      encode wch = [.ofNat (0xe0 + wch / 2 ^ 12), contByte wch (2 ^ 6), contByte wch 1]) ∨
    ((0x10000 ≤ wch ∧ wch < 0x200000) ∧ utf8Size wch = 4 ∧
      encode wch = [.ofNat (0xf0 + wch / 2 ^ 18), contByte wch (2 ^ 12), contByte wch (2 ^ 6),
        contByte wch 1]) ∨
    ((0x200000 ≤ wch ∧ wch < 0x4000000) ∧ utf8Size wch = 5 ∧
      encode wch = [.ofNat (0xf8 + wch / 2 ^ 24), contByte wch (2 ^ 18), contByte wch (2 ^ 12),
        contByte wch (2 ^ 6), contByte wch 1]) ∨
    (0x4000000 ≤ wch ∧ utf8Size wch = 6 ∧
      encode wch = [.ofNat (0xfc + wch / 2 ^ 30), contByte wch (2 ^ 24), contByte wch (2 ^ 18),
        contByte wch (2 ^ 12), contByte wch (2 ^ 6), contByte wch 1]) := by
  unfold utf8Size encode
  split_ifs
  · exact .inl ⟨‹_›, rfl, rfl⟩
  · exact .inr (.inl ⟨⟨by omega, ‹_›⟩, rfl, rfl⟩)
  · exact .inr (.inr (.inl ⟨⟨by omega, ‹_›⟩, rfl, rfl⟩))
  · exact .inr (.inr (.inr (.inl ⟨⟨by omega, ‹_›⟩, rfl, rfl⟩)))
  · exact .inr (.inr (.inr (.inr (.inl ⟨⟨by omega, ‹_›⟩, rfl, rfl⟩))))
  · exact .inr (.inr (.inr (.inr (.inr ⟨by omega, rfl, rfl⟩))))

theorem length_encode (wch : Nat) : (encode wch).length = utf8Size wch := by
  unfold encode utf8Size
  split_ifs <;> rfl

namespace WcharToUtf8

variable {wch : Nat} {bs : Bytes}

theorem cont_eq (wch : Nat) : cont wch = contByte wch 1 := by
  have hand : wch &&& 0x3f = wch % 2 ^ 6 := Nat.and_two_pow_sub_one_eq_mod wch 6
  have hor : 0x80 ||| wch % 2 ^ 6 = 0x80 + wch % 2 ^ 6 :=
    (Nat.two_pow_add_eq_or_of_lt (i := 7) (Nat.lt_trans (Nat.mod_lt _ (by decide)) (by decide))
      1).symm
  rw [cont, contByte, hand, hor, Nat.div_one]

theorem case1_eq (h : wch < 2 ^ 8) : case1 wch bs = .ofNat wch :: bs := by
  have hand : wch &&& 0xff = wch % 2 ^ 8 := Nat.and_two_pow_sub_one_eq_mod wch 8
  rw [case1, hand, Nat.mod_eq_of_lt h]

theorem case2_eq (h : wch < 2 ^ 12) :
    case2 wch bs = .ofNat (0xc0 + wch / 2 ^ 6) :: contByte wch 1 :: bs := by
  rw [case2, shiftRight_or (i := 6) (by omega) (by decide), case1_eq (by omega), cont_eq]

/-- A byte of the shifted number, where the bits that were added are above it. -/
theorem contByte_add (mask d e : Nat) (h : mask % (d * 2 ^ 6) = 0 ∧ 0 < d ∧ e = 2 ^ 6 * d) :
    contByte (mask + wch / 2 ^ 6) d = contByte wch e := by
  obtain ⟨hmask, hd, rfl⟩ := h
  obtain ⟨m, rfl⟩ := Nat.dvd_of_mod_eq_zero hmask
  have hdiv : (d * 2 ^ 6 * m + wch / 2 ^ 6) / d = 2 ^ 6 * m + wch / (2 ^ 6 * d) := by
    rw [mul_assoc, Nat.mul_add_div hd, Nat.div_div_eq_div_mul]
  rw [contByte, contByte, hdiv, Nat.mul_add_mod (2 ^ 6)]

theorem case3_eq (h : wch < 2 ^ 17) :
    case3 wch bs =
      .ofNat (0xe0 + wch / 2 ^ 12) :: contByte wch (2 ^ 6) :: contByte wch 1 :: bs := by
  have hlead : 0xc0 + (0x800 + wch / 2 ^ 6) / 2 ^ 6 = 0xe0 + wch / 2 ^ 12 := by omega
  rw [case3, shiftRight_or (i := 11) (by omega) (by decide), case2_eq (by omega), cont_eq, hlead,
    contByte_add 0x800 1 (2 ^ 6) (by decide)]

theorem case4_eq (h : wch < 2 ^ 22) :
    case4 wch bs = .ofNat (0xf0 + wch / 2 ^ 18) :: contByte wch (2 ^ 12) ::
      contByte wch (2 ^ 6) :: contByte wch 1 :: bs := by
  have hlead : 0xe0 + (0x10000 + wch / 2 ^ 6) / 2 ^ 12 = 0xf0 + wch / 2 ^ 18 := by omega
  rw [case4, shiftRight_or (i := 16) (by omega) (by decide), case3_eq (by omega), cont_eq, hlead,
    contByte_add 0x10000 1 (2 ^ 6) (by decide), contByte_add 0x10000 (2 ^ 6) (2 ^ 12) (by decide)]

theorem case5_eq (h : wch < 2 ^ 27) :
    case5 wch bs = .ofNat (0xf8 + wch / 2 ^ 24) :: contByte wch (2 ^ 18) ::
      contByte wch (2 ^ 12) :: contByte wch (2 ^ 6) :: contByte wch 1 :: bs := by
  have hlead : 0xf0 + (0x200000 + wch / 2 ^ 6) / 2 ^ 18 = 0xf8 + wch / 2 ^ 24 := by omega
  rw [case5, shiftRight_or (i := 21) (by omega) (by decide), case4_eq (by omega), cont_eq, hlead,
    contByte_add 0x200000 1 (2 ^ 6) (by decide),
    contByte_add 0x200000 (2 ^ 6) (2 ^ 12) (by decide),
    contByte_add 0x200000 (2 ^ 12) (2 ^ 18) (by decide)]

theorem case6_eq (h : wch < 2 ^ 32) :
    case6 wch bs = .ofNat (0xfc + wch / 2 ^ 30) :: contByte wch (2 ^ 24) ::
      contByte wch (2 ^ 18) :: contByte wch (2 ^ 12) :: contByte wch (2 ^ 6) ::
      contByte wch 1 :: bs := by
  have hlead : 0xf8 + (0x4000000 + wch / 2 ^ 6) / 2 ^ 24 = 0xfc + wch / 2 ^ 30 := by omega
  rw [case6, shiftRight_or (i := 26) (by omega) (by decide), case5_eq (by omega), cont_eq, hlead,
    contByte_add 0x4000000 1 (2 ^ 6) (by decide),
    contByte_add 0x4000000 (2 ^ 6) (2 ^ 12) (by decide),
    contByte_add 0x4000000 (2 ^ 12) (2 ^ 18) (by decide),
    contByte_add 0x4000000 (2 ^ 18) (2 ^ 24) (by decide)]

end WcharToUtf8

open WcharToUtf8 in
/-- A code point is written as its bytes where there is room for them. -/
theorem wcharToUtf8_eq_ite {wch : Nat} (h : wch ≤ 0x7fffffff) (size : Int) :
    wcharToUtf8 wch size =
      if size < utf8Size wch then .smallOutput else .bytes (encode wch) := by
  rcases encode_cases wch with ⟨hr, hs, he⟩ | ⟨hr, hs, he⟩ | ⟨hr, hs, he⟩ | ⟨hr, hs, he⟩ |
    ⟨hr, hs, he⟩ | ⟨hr, hs, he⟩
  all_goals rw [wcharToUtf8, hs, he]
  · rw [if_pos hr, case1_eq (by omega)]
    rfl
  · rw [if_neg (by omega), if_pos hr.2, case2_eq (by omega)]
    rfl
  · rw [if_neg (by omega), if_neg (by omega), if_pos hr.2, case3_eq (by omega)]
    rfl
  · rw [if_neg (by omega), if_neg (by omega), if_neg (by omega), if_pos hr.2, case4_eq (by omega)]
    rfl
  · rw [if_neg (by omega), if_neg (by omega), if_neg (by omega), if_neg (by omega), if_pos hr.2,
      case5_eq (by omega)]
    rfl
  · rw [if_neg (by omega), if_neg (by omega), if_neg (by omega), if_neg (by omega),
      if_neg (by omega), if_pos h, case6_eq (by omega)]
    rfl

theorem utf8Size_pos (wch : Nat) : 0 < utf8Size wch := by
  unfold utf8Size
  split_ifs
  all_goals decide

theorem utf8Size_le (wch : Nat) : utf8Size wch ≤ 6 := by
  unfold utf8Size
  split_ifs
  all_goals decide

/-- A code point is written as its bytes. -/
theorem wcharToUtf8_eq {wch : Nat} (h : wch ≤ 0x7fffffff) :
    wcharToUtf8 wch 6 = .bytes (encode wch) := by
  have := utf8Size_le wch
  rw [wcharToUtf8_eq_ite h, if_neg (by omega)]

/-! ## Reading a character -/

@[simp]
theorem byteAt_zero (b : UInt8) (bs : Bytes) : byteAt (b :: bs) 0 = b.toNat := rfl

@[simp]
theorem byteAt_succ (b : UInt8) (bs : Bytes) (k : Nat) : byteAt (b :: bs) (k + 1) = byteAt bs k :=
  rfl

theorem toNat_contByte (wch d : Nat) : (contByte wch d).toNat = 0x80 + wch / d % 2 ^ 6 :=
  UInt8.toNat_ofNat_of_lt' (show _ < 256 by omega)

/-- The byte at an index continues a character, with the bits `x`. -/
theorem cont_of_byteAt {utf8 : Bytes} {k wch d : Nat} (h : byteAt utf8 k = (contByte wch d).toNat) :
    isCont utf8 k = true ∧ contBits utf8 k = wch / d % 2 ^ 6 := by
  have hbits : contBits utf8 k = wch / d % 2 ^ 6 := by
    rw [contBits, h, toNat_contByte, xor_0x80 (Nat.mod_lt _ (by decide))]
  refine ⟨?_, hbits⟩
  rw [isCont, hbits]
  exact decide_eq_true (Nat.mod_lt _ (by decide))

/-- What the reader makes of a code point: of five bytes, it keeps the lower 24 bits. -/
def reread (wch : Nat) (size : Int) : Nat :=
  if utf8Size wch = 5 then size.toNat % 4 * 2 ^ 24 + wch % 2 ^ 24 else wch

section

variable {utf8 : Bytes} {wch : Nat} {size : Int}

/-- Two bytes are not read: the first is taken for one of three. -/
theorem wcharFromUtf8_two (h0 : byteAt utf8 0 = 0xc0 + wch / 2 ^ 6) (h2 : isCont utf8 2 = false)
    (hsize : size ≠ 0) (hhigh : wch < 0x800) : wcharFromUtf8 utf8 size = .invalidInput := by
  unfold wcharFromUtf8
  simp only [h0, h2]
  rw [if_neg hsize, if_neg (by omega), if_neg (by omega), if_pos (by omega)]
  simp

theorem wcharFromUtf8_three (h0 : byteAt utf8 0 = 0xe0 + wch / 2 ^ 12)
    (h1 : byteAt utf8 1 = (contByte wch (2 ^ 6)).toNat)
    (h2 : byteAt utf8 2 = (contByte wch 1).toNat) (hsize : size ≠ 0) (hlow : 0x800 ≤ wch)
    (hhigh : wch < 0x10000) :
    wcharFromUtf8 utf8 size = if size < 3 then .invalidInput else .char 3 wch := by
  obtain ⟨c1, b1⟩ := cont_of_byteAt h1
  obtain ⟨c2, b2⟩ := cont_of_byteAt h2
  rw [toNat_contByte] at h1
  have hlead : (0xe0 + wch / 2 ^ 12) &&& 0x0f = wch / 2 ^ 12 := by
    rw [Nat.and_two_pow_sub_one_eq_mod _ 4]
    omega
  have hvalue :
      (wch / 2 ^ 12) <<< 12 ||| (wch / 2 ^ 6 % 2 ^ 6) <<< 6 ||| wch / 1 % 2 ^ 6 = wch := by
    rw [shiftLeft_or wch 12 6 rfl, shiftLeft_or_zero]
  unfold wcharFromUtf8
  simp only [h0, h1, c1, c2, b1, b2, hlead, hvalue]
  rw [if_neg hsize, if_neg (by omega), if_neg (by omega), if_pos (by omega)]
  apply if_congr Iff.rfl rfl
  -- a number from `0x800` on is not too long
  rw [if_neg]
  simp
  omega

theorem wcharFromUtf8_four (h0 : byteAt utf8 0 = 0xf0 + wch / 2 ^ 18)
    (h1 : byteAt utf8 1 = (contByte wch (2 ^ 12)).toNat)
    (h2 : byteAt utf8 2 = (contByte wch (2 ^ 6)).toNat)
    (h3 : byteAt utf8 3 = (contByte wch 1).toNat) (hsize : size ≠ 0) (hlow : 0x10000 ≤ wch)
    (hhigh : wch < 0x200000) :
    wcharFromUtf8 utf8 size = if size < 4 then .invalidInput else .char 4 wch := by
  obtain ⟨c1, b1⟩ := cont_of_byteAt h1
  obtain ⟨c2, b2⟩ := cont_of_byteAt h2
  obtain ⟨c3, b3⟩ := cont_of_byteAt h3
  rw [toNat_contByte] at h1
  have hlead : (0xf0 + wch / 2 ^ 18) &&& 0x07 = wch / 2 ^ 18 := by
    rw [Nat.and_two_pow_sub_one_eq_mod _ 3]
    omega
  -- The parts of the code point come together again.
  have hvalue : (wch / 2 ^ 18) <<< 18 ||| (wch / 2 ^ 12 % 2 ^ 6) <<< 12 |||
      (wch / 2 ^ 6 % 2 ^ 6) <<< 6 ||| wch / 1 % 2 ^ 6 = wch := by
    rw [shiftLeft_or wch 18 12 rfl, shiftLeft_or wch 12 6 rfl, shiftLeft_or_zero]
  unfold wcharFromUtf8
  simp only [h0, h1, c1, c2, c3, b1, b2, b3, hlead, hvalue]
  -- The ranges of the first byte.
  rw [if_neg hsize, if_neg (by omega), if_neg (by omega), if_neg (by omega), if_pos (by omega)]
  apply if_congr Iff.rfl rfl
  rw [if_neg]
  simp
  omega

/-- Of five bytes, the lower 24 bits are read. -/
theorem wcharFromUtf8_five (h0 : byteAt utf8 0 = 0xf8 + wch / 2 ^ 24)
    (h1 : byteAt utf8 1 = (contByte wch (2 ^ 18)).toNat)
    (h2 : byteAt utf8 2 = (contByte wch (2 ^ 12)).toNat)
    (h3 : byteAt utf8 3 = (contByte wch (2 ^ 6)).toNat)
    (h4 : byteAt utf8 4 = (contByte wch 1).toNat) (hsize : size ≠ 0) (hlow : 0x200000 ≤ wch)
    (hhigh : wch < 0x4000000) :
    wcharFromUtf8 utf8 size =
      if size < 5 then .invalidInput
      else .char 5 (size.toNat % 4 * 2 ^ 24 + wch % 2 ^ 24) := by
  obtain ⟨c1, b1⟩ := cont_of_byteAt h1
  obtain ⟨c2, b2⟩ := cont_of_byteAt h2
  obtain ⟨c3, b3⟩ := cont_of_byteAt h3
  obtain ⟨c4, b4⟩ := cont_of_byteAt h4
  rw [toNat_contByte] at h1
  have hand : size.toNat &&& 0x03 = size.toNat % 2 ^ 2 := Nat.and_two_pow_sub_one_eq_mod _ 2
  have hvalue : (size.toNat % 2 ^ 2) <<< 24 ||| (wch / 2 ^ 18 % 2 ^ 6) <<< 18 |||
      (wch / 2 ^ 12 % 2 ^ 6) <<< 12 ||| (wch / 2 ^ 6 % 2 ^ 6) <<< 6 ||| wch / 1 % 2 ^ 6 =
      size.toNat % 4 * 2 ^ 24 + wch % 2 ^ 24 := by
    -- the number with these two highest bits has the same digits
    obtain ⟨w, hw⟩ : ∃ w, w = size.toNat % 4 * 2 ^ 24 + wch % 2 ^ 24 := ⟨_, rfl⟩
    have d4 : size.toNat % 2 ^ 2 = w / 2 ^ 24 := by omega
    have d3 : wch / 2 ^ 18 % 2 ^ 6 = w / 2 ^ 18 % 2 ^ 6 := by omega
    have d2 : wch / 2 ^ 12 % 2 ^ 6 = w / 2 ^ 12 % 2 ^ 6 := by omega
    have d1 : wch / 2 ^ 6 % 2 ^ 6 = w / 2 ^ 6 % 2 ^ 6 := by omega
    have d0 : wch / 1 % 2 ^ 6 = w / 1 % 2 ^ 6 := by omega
    rw [← hw, d4, d3, d2, d1, d0, shiftLeft_or w 24 18 rfl, shiftLeft_or w 18 12 rfl,
      shiftLeft_or w 12 6 rfl, shiftLeft_or_zero]
  unfold wcharFromUtf8
  simp only [h0, h1, c1, c2, c3, c4, b1, b2, b3, b4, hand, hvalue]
  rw [if_neg hsize, if_neg (by omega), if_neg (by omega), if_neg (by omega), if_neg (by omega),
    if_pos (by omega)]
  apply if_congr Iff.rfl rfl
  rw [if_neg]
  simp
  omega

theorem wcharFromUtf8_six (h0 : byteAt utf8 0 = 0xfc + wch / 2 ^ 30)
    (h1 : byteAt utf8 1 = (contByte wch (2 ^ 24)).toNat)
    (h2 : byteAt utf8 2 = (contByte wch (2 ^ 18)).toNat)
    (h3 : byteAt utf8 3 = (contByte wch (2 ^ 12)).toNat)
    (h4 : byteAt utf8 4 = (contByte wch (2 ^ 6)).toNat)
    (h5 : byteAt utf8 5 = (contByte wch 1).toNat) (hsize : size ≠ 0) (hlow : 0x4000000 ≤ wch)
    (hhigh : wch ≤ 0x7fffffff) :
    wcharFromUtf8 utf8 size = if size < 6 then .invalidInput else .char 6 wch := by
  obtain ⟨c1, b1⟩ := cont_of_byteAt h1
  obtain ⟨c2, b2⟩ := cont_of_byteAt h2
  obtain ⟨c3, b3⟩ := cont_of_byteAt h3
  obtain ⟨c4, b4⟩ := cont_of_byteAt h4
  obtain ⟨c5, b5⟩ := cont_of_byteAt h5
  rw [toNat_contByte] at h1
  have hlead : (0xfc + wch / 2 ^ 30) &&& 0x01 = wch / 2 ^ 30 := by
    rw [Nat.and_two_pow_sub_one_eq_mod _ 1]
    omega
  -- The parts of the code point come together again.
  have hvalue : (wch / 2 ^ 30) <<< 30 ||| (wch / 2 ^ 24 % 2 ^ 6) <<< 24 |||
      (wch / 2 ^ 18 % 2 ^ 6) <<< 18 ||| (wch / 2 ^ 12 % 2 ^ 6) <<< 12 |||
      (wch / 2 ^ 6 % 2 ^ 6) <<< 6 ||| wch / 1 % 2 ^ 6 = wch := by
    rw [shiftLeft_or wch 30 24 rfl, shiftLeft_or wch 24 18 rfl, shiftLeft_or wch 18 12 rfl,
      shiftLeft_or wch 12 6 rfl, shiftLeft_or_zero]
  unfold wcharFromUtf8
  simp only [h0, h1, c1, c2, c3, c4, c5, b1, b2, b3, b4, b5, hlead, hvalue]
  -- The ranges of the first byte.
  rw [if_neg hsize, if_neg (by omega), if_neg (by omega), if_neg (by omega), if_neg (by omega),
    if_neg (by omega), if_pos (by omega)]
  apply if_congr Iff.rfl rfl
  rw [if_neg]
  simp
  omega

end

/-- The first byte. -/
theorem byteAt_ofNat {n : Nat} (h : n < 256) (bs : Bytes) : byteAt (.ofNat n :: bs) 0 = n :=
  UInt8.toNat_ofNat_of_lt' h

/-- What is read of a character, where the byte behind it does not continue it. -/
theorem wcharFromUtf8_encode {wch : Nat} {size : Int} {rest : Bytes} (h : wch ≤ 0x7fffffff)
    (hrest : isCont rest 0 = false) (hsize : size ≠ 0) :
    wcharFromUtf8 (encode wch ++ rest) size =
      if utf8Size wch = 2 ∨ utf8Size wch ≠ 1 ∧ size < utf8Size wch then .invalidInput
      else .char (utf8Size wch) (reread wch size) := by
  rcases encode_cases wch with ⟨hr, hn, he⟩ | ⟨hr, hn, he⟩ | ⟨hr, hn, he⟩ | ⟨hr, hn, he⟩ |
    ⟨hr, hn, he⟩ | ⟨hr, hn, he⟩
  all_goals rw [reread, he, hn]
  · have hch : byteAt ([UInt8.ofNat wch] ++ rest) 0 = wch := byteAt_ofNat (by omega) rest
    unfold wcharFromUtf8
    simp only [hch]
    rw [if_neg hsize, if_pos hr]
    simp
  · -- Two bytes are taken for the beginning of three.
    rw [if_pos (.inl rfl)]
    exact wcharFromUtf8_two (byteAt_ofNat (by omega) _) hrest hsize hr.2
  · refine (wcharFromUtf8_three (byteAt_ofNat (by omega) _) rfl rfl hsize hr.1 hr.2).trans ?_
    simp
  · refine (wcharFromUtf8_four (byteAt_ofNat (by omega) _) rfl rfl rfl hsize hr.1 hr.2).trans ?_
    simp
  · refine (wcharFromUtf8_five (byteAt_ofNat (by omega) _) rfl rfl rfl rfl hsize hr.1 hr.2).trans ?_
    simp
  · refine (wcharFromUtf8_six (byteAt_ofNat (by omega) _) rfl rfl rfl rfl rfl hsize hr h).trans ?_
    simp

theorem contByte_ne_zero (wch d : Nat) : contByte wch d ≠ 0 := by
  intro h
  have htoNat := toNat_contByte wch d
  rw [h, UInt8.toNat_zero] at htoNat
  omega

/-- The first byte of a character, and the others. -/
theorem exists_encode_eq_cons {wch : Nat} (hpos : 0 < wch) (h : wch ≤ 0x7fffffff) :
    ∃ ch bs, encode wch = .ofNat ch :: bs ∧ 0 < ch ∧ ch < 256 ∧ (ch < 0x80 ∨ 0xc0 ≤ ch) ∧
      0 ∉ bs := by
  rcases encode_cases wch with ⟨hr, -, he⟩ | ⟨hr, -, he⟩ | ⟨hr, -, he⟩ | ⟨hr, -, he⟩ |
    ⟨hr, -, he⟩ | ⟨hr, -, he⟩
  all_goals
    refine ⟨_, _, he, by omega, by omega, by omega, ?_⟩
    simp [(contByte_ne_zero _ _).symm]

/-! ## The bytes of a sequence -/

/-- The code points between 1 and `0x7fffffff`. -/
def CodePoints (ws : List Nat) : Prop := ∀ wch ∈ ws, 1 ≤ wch ∧ wch ≤ 0x7fffffff

theorem CodePoints.head {wch : Nat} {ws : List Nat} (h : CodePoints (wch :: ws)) :
    1 ≤ wch ∧ wch ≤ 0x7fffffff := h wch List.mem_cons_self

theorem CodePoints.tail {wch : Nat} {ws : List Nat} (h : CodePoints (wch :: ws)) : CodePoints ws :=
  fun w hw => h w (List.mem_cons_of_mem _ hw)

/-- The bytes of a sequence. -/
def encodeAll (ws : List Nat) : Bytes := ws.flatMap encode

theorem encodeAll_cons (wch : Nat) (ws : List Nat) :
    encodeAll (wch :: ws) = encode wch ++ encodeAll ws := List.flatMap_cons ..

theorem utf8Length_cons (wch : Nat) (ws : List Nat) :
    utf8Length (wch :: ws) = utf8Size wch + utf8Length ws := by
  rw [utf8Length, List.map_cons, List.sum_cons, utf8Length]

theorem length_encodeAll (ws : List Nat) : (encodeAll ws).length = utf8Length ws := by
  induction ws with
  | nil => rfl
  | cons wch ws ih => rw [encodeAll_cons, List.length_append, length_encode, ih, utf8Length_cons]

theorem length_le_utf8Length (ws : List Nat) : ws.length ≤ utf8Length ws := by
  induction ws with
  | nil => exact Nat.zero_le _
  | cons wch ws ih =>
    have := utf8Size_pos wch
    rw [utf8Length_cons, List.length_cons]
    omega

variable {ws : List Nat}

/-- The bytes of a sequence are a C string. -/
theorem zero_not_mem_encodeAll (h : CodePoints ws) : 0 ∉ encodeAll ws := by
  induction ws with
  | nil => exact List.not_mem_nil
  | cons wch ws ih =>
    obtain ⟨ch, bs, he, hpos, hlt, -, hbs⟩ := exists_encode_eq_cons h.head.1 h.head.2
    have hch : (0 : UInt8) ≠ .ofNat ch := by
      intro h0
      have := byteAt_ofNat hlt []
      rw [← h0, byteAt_zero, UInt8.toNat_zero] at this
      omega
    rw [encodeAll_cons, List.mem_append, he, List.mem_cons, not_or, not_or]
    exact ⟨⟨hch, hbs⟩, ih h.tail⟩

/-- Behind a character is another one, or the end. -/
theorem isCont_encodeAll (h : CodePoints ws) : isCont (encodeAll ws) 0 = false := by
  cases ws with
  | nil => decide
  | cons wch ws =>
    obtain ⟨ch, bs, he, -, hlt, hlead, -⟩ := exists_encode_eq_cons h.head.1 h.head.2
    have hall : ∀ n < 256, n < 0x80 ∨ 0xc0 ≤ n → ¬ n ^^^ 0x80 < 0x40 := by decide +kernel
    rw [encodeAll_cons, he, List.cons_append, isCont, contBits, byteAt_ofNat hlt]
    exact decide_eq_false (hall ch hlt hlead)

/-! ## Writing a sequence -/

/-- What is written are the bytes of the sequence. -/
theorem Utf8.eq_encodeAll_of_fromUnicodeLoop {i : Nat} {utf8 : Bytes} (h : CodePoints ws)
    (hloop : fromUnicodeLoop i ws = some utf8) : utf8 = encodeAll ws := by
  induction ws generalizing i utf8 with
  | nil => exact (Option.some.inj hloop).symm
  | cons wch ws ih =>
    have hne : wch ≠ 0 := by
      have := h.head.1
      omega
    rw [fromUnicodeLoop, if_neg hne, wcharToUtf8_eq h.head.2] at hloop
    simp only at hloop
    split at hloop
    · obtain ⟨rest, hrest, rfl⟩ := Option.map_eq_some_iff.mp hloop
      rw [encodeAll_cons, ih h.tail hrest]
    · cases hloop

/-- A sequence that is not too long is written. -/
theorem Utf8.fromUnicodeLoop_eq {i : Nat} (h : CodePoints ws) (hlen : i + ws.length < 2 ^ 31) :
    fromUnicodeLoop i ws = some (encodeAll ws) := by
  induction ws generalizing i with
  | nil => rfl
  | cons wch ws ih =>
    have hne : wch ≠ 0 := by
      have := h.head.1
      omega
    rw [List.length_cons] at hlen
    rw [fromUnicodeLoop, if_neg hne, wcharToUtf8_eq h.head.2, encodeAll_cons]
    simp only
    rw [if_pos (by omega), ih h.tail (by omega), Option.map_some]

/-! ## Reading a sequence -/

namespace Unicode

variable {s : Bytes} {i : Nat} {len : Int} {acc r : List Nat}

theorem fromUtf8Loop_none (h : wcharFromUtf8 (s.drop i) len = .noneInput) :
    fromUtf8Loop s i len acc = some acc := by
  rw [fromUtf8Loop]
  split
  all_goals simp_all

theorem fromUtf8Loop_invalid (h : wcharFromUtf8 (s.drop i) len = .invalidInput) :
    fromUtf8Loop s i len acc = some [] := by
  rw [fromUtf8Loop]
  split
  all_goals simp_all

theorem fromUtf8Loop_char {count wch : Nat}
    (h : wcharFromUtf8 (s.drop i) len = .char count wch) :
    fromUtf8Loop s i len acc =
      if 2 ^ 31 ≤ i + count ∨ len - count < -2 ^ 31 then none
      else fromUtf8Loop s (i + count) (len - count) (acc ++ [wch]) := by
  rw [fromUtf8Loop]
  split
  · simp_all
  · simp_all
  · next count' wch' heq =>
    rw [h, Decoded.char.injEq] at heq
    obtain ⟨rfl, rfl⟩ := heq
    rfl

/-- The characters that have been read stay, unless all are cleared. -/
theorem prefix_of_fromUtf8Loop (h : fromUtf8Loop s i len acc = some r) : r = [] ∨ acc <+: r := by
  induction i, len, acc using fromUtf8Loop.induct s with
  | case1 i len acc hnone =>
    rw [fromUtf8Loop_none hnone] at h
    exact .inr ⟨[], by rw [List.append_nil, Option.some.inj h]⟩
  | case2 i len acc hinvalid =>
    rw [fromUtf8Loop_invalid hinvalid] at h
    exact .inl (Option.some.inj h).symm
  | case3 i len acc count wch hchar hover =>
    rw [fromUtf8Loop_char hchar, if_pos hover] at h
    cases h
  | case4 i len acc count wch hchar hover ih =>
    rw [fromUtf8Loop_char hchar, if_neg hover] at h
    exact (ih h).imp_right (List.prefix_append acc [wch]).trans

/-- What is read where a character begins. -/
theorem wcharFromUtf8_drop (pre : Bytes) (len : Int) {wch : Nat} (h : CodePoints (wch :: ws))
    (hlen : len ≠ 0) :
    wcharFromUtf8 ((pre ++ encodeAll (wch :: ws)).drop pre.length) len =
      if utf8Size wch = 2 ∨ utf8Size wch ≠ 1 ∧ len < utf8Size wch then .invalidInput
      else .char (utf8Size wch) (reread wch len) := by
  rw [List.drop_left, encodeAll_cons]
  exact wcharFromUtf8_encode h.head.2 (isCont_encodeAll h.tail) hlen

/-- Five bytes are read as they were written where the length agrees with the highest bits. -/
theorem reread_eq_self_iff {wch : Nat} {len : Nat} :
    reread wch len = wch ↔ (utf8Size wch = 5 → len % 4 = wch / 2 ^ 24) := by
  unfold reread
  split_ifs with h
  · rw [Int.toNat_natCast]
    omega
  · simp [h]

/-- From the beginning of a character on, a sequence is read that survives. -/
theorem fromUtf8Loop_eq (pre : Bytes) (acc : List Nat) (h : CodePoints ws)
    (hlen : pre.length + utf8Length ws < 2 ^ 31) (hsurvives : Survives ws) :
    fromUtf8Loop (pre ++ encodeAll ws) pre.length (utf8Length ws) acc = some (acc ++ ws) := by
  induction ws generalizing pre acc with
  | nil =>
    rw [fromUtf8Loop_none (by rw [wcharFromUtf8]; exact if_pos rfl), List.append_nil]
  | cons wch ws ih =>
    obtain ⟨htwo, hfive, hrest⟩ := hsurvives
    have hpos := utf8Size_pos wch
    rw [utf8Length_cons] at hlen
    have hread := wcharFromUtf8_drop pre (utf8Length (wch :: ws)) h
      (by rw [utf8Length_cons]; omega)
    rw [if_neg (by rw [utf8Length_cons]; omega), reread_eq_self_iff.mpr hfive] at hread
    have hpre : pre.length + utf8Size wch = (pre ++ encode wch).length := by
      rw [List.length_append, length_encode]
    rw [fromUtf8Loop_char hread, if_neg (by rw [utf8Length_cons]; omega), hpre, encodeAll_cons,
      ← List.append_assoc, utf8Length_cons, Nat.cast_add, add_sub_cancel_left,
      ih _ _ h.tail (by rw [← hpre]; omega) hrest, List.append_assoc, List.singleton_append]

/-- A sequence that is read from the beginning of a character on is not too long, and survives if
the length is the one of its bytes. -/
theorem survives_of_fromUtf8Loop (pre : Bytes) (acc : List Nat) (h : CodePoints ws)
    (hpre : pre.length < 2 ^ 31)
    (hloop : fromUtf8Loop (pre ++ encodeAll ws) pre.length len acc = some (acc ++ ws)) :
    pre.length + utf8Length ws < 2 ^ 31 ∧ (len = utf8Length ws → Survives ws) := by
  induction ws generalizing pre acc len with
  | nil => exact ⟨hpre, fun _ => trivial⟩
  | cons wch ws ih =>
    -- With no bytes left, no character is read.
    have hlen : len ≠ 0 := by
      rintro rfl
      rw [fromUtf8Loop_none (by rw [wcharFromUtf8]; exact if_pos rfl)] at hloop
      simp at hloop
    have hread := wcharFromUtf8_drop pre len h hlen
    split at hread
    · rw [fromUtf8Loop_invalid hread] at hloop
      simp at hloop
    · next hvalid =>
      rw [fromUtf8Loop_char hread] at hloop
      split at hloop
      · cases hloop
      · next hover =>
        -- The character that is read is the one that was written.
        have heq : reread wch len = wch := by
          rcases prefix_of_fromUtf8Loop hloop with hnil | hread'
          · simp at hnil
          · simpa using hread'
        have hnext : pre.length + utf8Size wch = (pre ++ encode wch).length := by
          rw [List.length_append, length_encode]
        have hcons : acc ++ wch :: ws = acc ++ [wch] ++ ws := by simp
        rw [heq, hnext, encodeAll_cons, ← List.append_assoc, hcons] at hloop
        obtain ⟨htotal, hrest⟩ := ih _ _ h.tail (by rw [← hnext]; omega) hloop
        rw [← hnext] at htotal
        rw [utf8Length_cons]
        refine ⟨by omega, fun hbytes => ⟨fun htwo => hvalid (.inl htwo), ?_, hrest (by omega)⟩⟩
        rw [utf8Length_cons]
        rw [hbytes] at heq
        exact reread_eq_self_iff.mp heq

end Unicode

/-- A sequence of code points comes back exactly where its bytes are fewer than `2 ^ 31`, none of
the code points has two bytes, and for each one of five bytes, the bytes from it on are as many,
modulo four, as its two highest bits say. -/
theorem roundTripsUtf8_iff (ws : List Nat) (h : CodePoints ws) :
    RoundTripsUtf8 ws ↔ utf8Length ws < 2 ^ 31 ∧ Survives ws := by
  have hcString : cString (encodeAll ws) = encodeAll ws :=
    cString_of_not_mem (zero_not_mem_encodeAll h)
  constructor
  · rintro ⟨utf8, hwrite, hread⟩
    obtain rfl := Utf8.eq_encodeAll_of_fromUnicodeLoop h hwrite
    rw [Unicode.fromUtf8, hcString, length_encodeAll] at hread
    obtain ⟨hlen, hsurvives⟩ :=
      Unicode.survives_of_fromUtf8Loop [] [] h (by decide) hread
    rw [List.length_nil, Nat.zero_add] at hlen
    exact ⟨hlen, hsurvives (Int32.toInt_ofNat_of_lt hlen)⟩
  · rintro ⟨hlen, hsurvives⟩
    have hcount := length_le_utf8Length ws
    refine ⟨encodeAll ws, Utf8.fromUnicodeLoop_eq h (by omega), ?_⟩
    rw [Unicode.fromUtf8, hcString, length_encodeAll, Int32.toInt_ofNat_of_lt hlen]
    exact Unicode.fromUtf8Loop_eq [] [] h (by simpa using hlen) hsurvives

/-- A letter and a character of three bytes come back. -/
theorem roundTripsUtf8_three : RoundTripsUtf8 [0x41, 0x20ac] :=
  (roundTripsUtf8_iff [0x41, 0x20ac] (by simp [CodePoints])).mpr
    ⟨by decide, by simp [Survives, utf8Size]⟩

/-- A character of two bytes does not. -/
theorem not_roundTripsUtf8_two : ¬ RoundTripsUtf8 [0xe9] := by
  rintro ⟨utf8, hwrite, hread⟩
  have h : CodePoints [0xe9] := by simp [CodePoints]
  obtain rfl := Utf8.eq_encodeAll_of_fromUnicodeLoop h hwrite
  have hcString := cString_of_not_mem (zero_not_mem_encodeAll h)
  rw [Unicode.fromUtf8, hcString, length_encodeAll] at hread
  obtain ⟨-, hsurvives⟩ :=
    Unicode.survives_of_fromUtf8Loop [] [] h (by decide) hread
  exact (hsurvives (by decide)).1 (by decide)

end MosqCluster
