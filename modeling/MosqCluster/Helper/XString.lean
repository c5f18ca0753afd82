import Mathlib.Algebra.Group.Int.Defs
import Mathlib.Algebra.Group.Nat.Defs
import Mathlib.Data.List.TakeWhile

/-!
# Byte strings

`helper/xstring.h`: the string class `hlp::xstring`, whose size is an `int`. A C string is read up
to its first zero byte. The buffer of an `xstring` is not modelled, only its first `size_` bytes,
which is what `c_str` and `length` give back. `format` is `String::Format` of
`helper/string_helper.cpp`, which formats into a buffer of fixed size.
-/

namespace MosqCluster

/-- The bytes of a `std::string`, an `xstring`, or a buffer. -/
abbrev Bytes := List UInt8

/-- Strings are looked for in a list by their bytes. -/
instance lawfulBEqBytes : LawfulBEq Bytes := inferInstance

/-- The bytes of an ASCII string constant. -/
def bytes (s : String) : Bytes := s.toList.map Char.toUInt8

/-- The characters of a C string: the bytes before the first zero byte. -/
def cString (s : Bytes) : Bytes := s.takeWhile (· ≠ 0)

/-- A byte string without a zero byte is a C string as it stands. -/
@[simp]
theorem cString_of_not_mem {s : Bytes} (h : 0 ∉ s) : cString s = s := by
  refine List.takeWhile_eq_self_iff.mpr fun b hb => ?_
  have : b ≠ 0 := fun h0 => h (h0 ▸ hb)
  simpa using this

/-- A C string ends at a zero byte. -/
theorem exists_eq_cString_append {s : Bytes} (h : 0 ∈ s) : ∃ rest, s = cString s ++ 0 :: rest := by
  induction s with
  | nil => exact absurd h (by simp)
  | cons b s ih =>
    by_cases hb : b = 0
    · exact ⟨s, by simp [cString, hb]⟩
    · have hmem : 0 ∈ s := (List.mem_cons.mp h).resolve_left fun heq => hb heq.symm
      obtain ⟨rest, hrest⟩ := ih hmem
      refine ⟨rest, ?_⟩
      rw [show cString (b :: s) = b :: cString s by simp [cString, hb], List.cons_append, ← hrest]

/-- The position of a byte at or behind an offset: `std::string::find`. -/
def findFrom (s : Bytes) (b : UInt8) (offset : Nat) : Option Nat :=
  ((s.drop offset).findIdx? (· == b)).map (· + offset)

/-- Nothing is found where the byte does not occur any more. -/
theorem findFrom_eq_none_iff {s : Bytes} {b : UInt8} {offset : Nat} :
    findFrom s b offset = none ↔ b ∉ s.drop offset := by
  rw [findFrom, Option.map_eq_none_iff, List.findIdx?_eq_none_iff]
  constructor
  · intro h hmem
    simpa using h b hmem
  · intro h x hx
    have : x ≠ b := fun heq => h (heq ▸ hx)
    simpa using this

/-- The first byte of this kind. -/
theorem findFrom_append {m : Bytes} {b : UInt8} (hm : b ∉ m) (a rest : Bytes) :
    findFrom (a ++ (m ++ b :: rest)) b a.length = some (a.length + m.length) := by
  have hindex : (m ++ b :: rest).findIdx? (· == b) = some m.length := by
    rw [List.findIdx?_append, List.findIdx?_eq_none_iff.mpr]
    · simp [List.findIdx?_cons]
    · intro x hx
      have : x ≠ b := by
        rintro rfl
        exact hm hx
      simpa using this
  rw [findFrom, List.drop_left, hindex, Option.map_some, Nat.add_comm]

/-- What is found is the first one. -/
theorem exists_of_findFrom_eq_some {s : Bytes} {b : UInt8} {offset fpos : Nat}
    (h : findFrom s b offset = some fpos) :
    ∃ m rest, s.drop offset = m ++ b :: rest ∧ b ∉ m ∧ fpos = offset + m.length := by
  rw [findFrom, Option.map_eq_some_iff] at h
  obtain ⟨i, hfind, rfl⟩ := h
  obtain ⟨hi, hb, hbefore⟩ := List.findIdx?_eq_some_iff_getElem.mp hfind
  have hb : (s.drop offset)[i] = b := by simpa using hb
  refine ⟨(s.drop offset).take i, (s.drop offset).drop (i + 1), ?_, ?_, ?_⟩
  · rw [← hb, List.getElem_cons_drop, List.take_append_drop]
  · intro hmem
    obtain ⟨j, hj, hget⟩ := List.getElem_of_mem hmem
    rw [List.length_take] at hj
    have := hbefore j (by omega)
    rw [List.getElem_take] at hget
    simp [hget] at this
  · rw [List.length_take]
    omega

/-- What is found lies in the string. -/
theorem lt_length_of_findFrom {s : Bytes} {b : UInt8} {offset fpos : Nat}
    (h : findFrom s b offset = some fpos) : fpos < s.length := by
  obtain ⟨m, rest, hdrop, -, rfl⟩ := exists_of_findFrom_eq_some h
  have hlen := congrArg List.length hdrop
  rw [List.length_drop, List.length_append, List.length_cons] at hlen
  omega

/-- Before the first one there is none. -/
theorem eq_append_of_findFrom_zero {s : Bytes} {b : UInt8} {fpos : Nat}
    (h : findFrom s b 0 = some fpos) :
    s = s.take fpos ++ b :: s.drop (fpos + 1) ∧ b ∉ s.take fpos := by
  simp only [findFrom, List.drop_zero, Nat.add_zero, Option.map_id_fun', id_eq] at h
  obtain ⟨hfpos, hb, hbefore⟩ := List.findIdx?_eq_some_iff_getElem.mp h
  have hb : s[fpos] = b := by simpa using hb
  constructor
  · rw [← hb, List.getElem_cons_drop, List.take_append_drop]
  · intro hmem
    obtain ⟨i, hi, hget⟩ := List.getElem_of_mem hmem
    rw [List.length_take] at hi
    have := hbefore i (by omega)
    rw [List.getElem_take] at hget
    simp [hget] at this

/-- `xstring(const char* str, size_type length)`: copy `length` bytes of a buffer that holds at
least as many. `none` is the undefined behaviour of a negative length, which `assign` takes for a
huge one, and of the length `INT_MAX`, for which `size + 1` overflows. -/
def xstring (str : Bytes) (length : Int32) : Option Bytes :=
  if length < 0 || length = Int32.maxValue then none
  else some (str.take length.toInt.toNat)

/-- A buffer shorter than `INT_MAX` is copied as it is. -/
theorem xstring_length {str : Bytes} (h : str.length < 2 ^ 31 - 1) :
    xstring str (Int32.ofNat str.length) = some str := by
  have hlen : (Int32.ofNat str.length).toInt = str.length := Int32.toInt_ofNat_of_lt (by omega)
  have hneg : ¬ Int32.ofNat str.length < 0 := by
    rw [Int32.lt_iff_toInt_lt, hlen]
    simp
  have hmax : Int32.ofNat str.length ≠ Int32.maxValue := by
    intro heq
    have : (Int32.ofNat str.length).toInt = 2 ^ 31 - 1 := by rw [heq]; rfl
    omega
  simp [xstring, hneg, hmax, hlen]

/-- A copy has fewer than `INT_MAX` bytes, and is the beginning of the buffer. -/
theorem eq_take_of_xstring {str s : Bytes} {length : Int32} (h : xstring str length = some s) :
    s = str.take length.toInt.toNat ∧ length.toInt < 2 ^ 31 - 1 := by
  unfold xstring at h
  split at h
  · cases h
  · next hbad =>
    simp only [Bool.or_eq_true, decide_eq_true_eq, not_or] at hbad
    refine ⟨(Option.some.inj h).symm, ?_⟩
    have hle := Int32.toInt_le length
    have hne : length.toInt ≠ Int32.maxValue.toInt := fun heq => hbad.2 (Int32.toInt_inj.mp heq)
    have hmax : Int32.maxValue.toInt = 2 ^ 31 - 1 := by decide
    omega

/-- `operator<` of two `xstring`s, whose characters are signed. -/
def xstringLess : Bytes → Bytes → Bool
  | [], t => !t.isEmpty
  | _ :: _, [] => false
  | a :: s, b :: t => if a = b then xstringLess s t else a.toInt8 < b.toInt8

/-- An `xstring` as the key of a map. -/
structure XString where
  bytes : Bytes
  deriving DecidableEq

instance : LT XString := ⟨fun s t => xstringLess s.bytes t.bytes⟩

instance : DecidableLT XString := fun s t =>
  inferInstanceAs (Decidable (xstringLess s.bytes t.bytes = true))

/-- `String::Format`, of a format that stands for `text`: `vsnprintf` writes at most one byte less
than the buffer has and returns the length of the whole text, negative where it exceeds `INT_MAX`;
the buffer is then cut to that length. -/
def format (text : Bytes) : Bytes :=
  if 2 ^ 31 - 1 < text.length then []
  else if text.length < 102400 then text
  else text.take 102399 ++ [0]

end MosqCluster
