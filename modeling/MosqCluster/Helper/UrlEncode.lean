import MosqCluster.Helper.XString

/-!
# URL decoding

`UrlDecode` of `helper/url_encode.cpp`, which replaces a percent sign and two digits by the byte
they stand for. A character from 128 on is negative in the source and never a digit.
-/

namespace MosqCluster

/-- `is_hex_char`. -/
def isHexChar (ch : UInt8) : Bool :=
  (48 ≤ ch && ch ≤ 57) || (97 ≤ ch && ch ≤ 102) || (65 ≤ ch && ch ≤ 70)

/-- `char2hex`. -/
def char2hex (ch : UInt8) : UInt8 :=
  if 48 ≤ ch && ch ≤ 57 then ch - 48
  else if 97 ≤ ch && ch ≤ 102 then ch - 97 + 0xA
  else if 65 ≤ ch && ch ≤ 70 then ch - 65 + 0xA
  else 0

/-- `UrlDecode`. -/
def urlDecode : Bytes → Bytes
  | [] => []
  | c :: hi :: lo :: rest =>
    if c = 37 && isHexChar hi && isHexChar lo then
      ((char2hex hi <<< 4 &&& 0xf0) ||| (char2hex lo &&& 0x0f)) :: urlDecode rest
    else c :: urlDecode (hi :: lo :: rest)
  | c :: rest => c :: urlDecode rest

/-- What does not start an escape is copied. -/
theorem urlDecode_cons {c : UInt8} {rest : Bytes}
    (h : ∀ hi lo more, rest = hi :: lo :: more →
      ¬ (c = 37 ∧ isHexChar hi = true ∧ isHexChar lo = true)) :
    urlDecode (c :: rest) = c :: urlDecode rest := by
  match rest with
  | [] => rfl
  | [_] => rfl
  | hi :: lo :: more =>
    have hcopy := h hi lo more rfl
    rw [urlDecode, if_neg]
    simpa [and_assoc] using hcopy

/-- A zero byte is not part of an escape: what stands before it is decoded by itself. -/
theorem urlDecode_append_zero (s rest : Bytes) :
    urlDecode (s ++ 0 :: rest) = urlDecode s ++ 0 :: urlDecode rest := by
  have hzero : ∀ rest, urlDecode (0 :: rest) = 0 :: urlDecode rest := fun rest =>
    urlDecode_cons fun _ _ _ _ h => absurd h.1 (by decide)
  fun_induction urlDecode s with
  | case1 => exact hzero rest
  | case2 c hi lo more hescape ih =>
    rw [List.cons_append, List.cons_append, List.cons_append, urlDecode, if_pos hescape, ih]
    rfl
  | case3 c hi lo more hcopy ih =>
    rw [List.cons_append, List.cons_append, List.cons_append, urlDecode, if_neg hcopy]
    exact congrArg (c :: ·) ih
  | case4 c more hshort ih =>
    rw [List.cons_append, urlDecode_cons, ih]
    · rfl
    · intro hi lo tail heq hescape
      -- fewer than two bytes are left, so one of the two digits is the zero byte
      match more, hshort, heq with
      | [], _, heq => exact absurd ((List.cons.inj heq).1 ▸ hescape.2.1) (by decide)
      | [_], _, heq =>
        exact absurd ((List.cons.inj (List.cons.inj heq).2).1 ▸ hescape.2.2) (by decide)
      | hi :: lo :: rest, hshort, _ => exact hshort hi lo rest rfl

/-- Decoding a C string gives what decoding the whole string does, exactly where no zero byte
stands in it. -/
theorem urlDecode_cString_eq_iff {s : Bytes} : urlDecode (cString s) = urlDecode s ↔ 0 ∉ s := by
  constructor
  · intro heq hmem
    obtain ⟨rest, hrest⟩ := exists_eq_cString_append hmem
    have hlen := congrArg List.length heq
    rw [hrest, urlDecode_append_zero, ← hrest, List.length_append, List.length_cons] at hlen
    omega
  · intro hnot
    rw [cString_of_not_mem hnot]

end MosqCluster
