import MosqCluster.Foundation.Execution
import MosqCluster.Foundation.Occurrences
import MosqCluster.Helper.XString

/-!
# Searching and editing strings

What the functions of `helper/string_helper.cpp` use of `std::string`, and how they count. A search
that finds nothing gives `npos`, which is `none` here. A counter is an `int`; it is `none` once it
has overflowed.

## Main definitions

* `find`, `rfind`, `replace` and `charAt`: the operations of `std::string`;
* `addInt` and `counted`: counters;
* `Edit`: what an editing function returns, and the string it leaves.
-/

namespace MosqCluster.hlp

/-! ## Strings -/

/-- `std::string::find`. -/
def find (str value : Bytes) (offset : Nat) : Option Nat :=
  if offset ≤ str.length then
    ((str.drop offset).dropInfix? value).map fun cut => offset + cut.1.length
  else none

/-- `std::string::rfind` from the end of the string, which finds the last occurrence: the first one
of the string read backwards. -/
def rfind (str value : Bytes) : Option Nat :=
  (str.reverse.dropInfix? value.reverse).map fun cut => cut.2.length

/-- `std::string::replace`. -/
def replace (str : Bytes) (fpos len : Nat) (value : Bytes) : Bytes :=
  str.take fpos ++ value ++ str.drop (fpos + len)

/-- `std::string::operator[]`, which reads a zero byte at the end of the string; `none` is a
position outside it. -/
def charAt (str : Bytes) (i : Nat) : Option UInt8 := (str ++ [0])[i]?

variable {str value done rest before after : Bytes} {i : Nat}

/-- A search from behind a part of the string. -/
theorem find_append (done rest value : Bytes) :
    find (done ++ rest) value done.length =
      (rest.dropInfix? value).map fun cut => done.length + cut.1.length := by
  have hle : done.length ≤ (done ++ rest).length := by rw [List.length_append]; omega
  rw [find, if_pos hle, List.drop_left]

/-- A search from the start. -/
theorem find_zero (str value : Bytes) :
    find str value 0 = (str.dropInfix? value).map fun cut => cut.1.length := by
  have h := find_append [] str value
  simpa using h

/-- A search from behind the end. -/
theorem find_of_lt {offset : Nat} (h : str.length < offset) : find str value offset = none :=
  if_neg (Nat.not_le.mpr h)

/-- The last occurrence, in a string that ends in the text. -/
theorem rfind_append (before value : Bytes) :
    rfind (before ++ value) value = some before.length := by
  rw [rfind, List.reverse_append, Occurrences.cut_append_left, Option.map_some,
    List.length_reverse]

/-- What is found last is there. -/
theorem eq_append_of_rfind {fpos : Nat} (h : rfind str value = some fpos) :
    ∃ before after, str = before ++ value ++ after ∧ fpos = before.length := by
  obtain ⟨cut, hcut, rfl⟩ := Option.map_eq_some_iff.mp h
  have heq := congrArg List.reverse (Occurrences.eq_of_cut hcut)
  refine ⟨cut.2.reverse, cut.1.reverse, ?_, (List.length_reverse).symm⟩
  simpa using heq

/-- A part of the string is replaced. -/
theorem replace_append (before old after value : Bytes) :
    replace (before ++ old ++ after) before.length old.length value = before ++ value ++ after := by
  rw [replace, ← List.length_append, List.drop_left, List.append_assoc before old, List.take_left]

theorem charAt_of_lt (h : i < str.length) : charAt str i = some str[i] := by
  rw [charAt, List.getElem?_append_left h, List.getElem?_eq_getElem h]

/-! ## Counters -/

/-- `retval += int(n)`. -/
def addInt (retval : Option Int32) (n : Nat) : Option Int32 :=
  retval.bind fun r =>
    let sum := r.toInt + (Int32.ofNat n).toInt
    if -2 ^ 31 ≤ sum ∧ sum < 2 ^ 31 then some (Int32.ofInt sum) else none

/-- A counter that has counted from 0 up to a number. -/
def counted (n : Nat) : Option Int32 := if n < 2 ^ 31 then some (Int32.ofNat n) else none

/-- A result is a number. -/
def IsNumber (retval : Option Int32) (n : Nat) : Prop := retval.map Int32.toInt = some (n : Int)

theorem addInt_counted {m n : Nat} (h : m + n < 2 ^ 31) :
    addInt (counted m) n = counted (m + n) := by
  have hm : (Int32.ofNat m).toInt = m := Int32.toInt_ofNat_of_lt (by omega)
  have hn : (Int32.ofNat n).toInt = n := Int32.toInt_ofNat_of_lt (by omega)
  rw [counted, counted, if_pos (by omega), if_pos h, addInt, Option.bind_some]
  simp only [hm, hn]
  rw [if_pos (by omega)]
  rfl

/-- Counting one more. -/
theorem addInt_counted_one (n : Nat) : addInt (counted n) 1 = counted (n + 1) := by
  by_cases h : n + 1 < 2 ^ 31
  · exact addInt_counted h
  · rw [counted, counted, if_neg h]
    by_cases hn : n < 2 ^ 31
    · -- the counter holds the largest `int`
      have hm : (Int32.ofNat n).toInt = n := Int32.toInt_ofNat_of_lt hn
      rw [if_pos hn, addInt, Option.bind_some]
      simp only [hm]
      exact if_neg (by have : (Int32.ofNat 1).toInt = 1 := rfl; omega)
    · rw [if_neg hn]
      rfl

/-- A number that is returned fits an `int`. -/
theorem IsNumber.lt {retval : Option Int32} {n : Nat} (h : IsNumber retval n) : n < 2 ^ 31 := by
  obtain ⟨r, -, hr⟩ := Option.map_eq_some_iff.mp h
  have := Int32.toInt_lt r
  omega

theorem isNumber_counted_iff {n : Nat} : IsNumber (counted n) n ↔ n < 2 ^ 31 := by
  refine ⟨IsNumber.lt, fun h => ?_⟩
  rw [counted, if_pos h, IsNumber, Option.map_some, Int32.toInt_ofNat_of_lt h]

/-- What an editing function returns, and the string it leaves. -/
structure Edit where
  retval : Option Int32
  str : Bytes
  deriving DecidableEq

/-- The state of a loop that scans the string which it edits. -/
structure Scan extends Edit where
  offset : Nat
  deriving DecidableEq

end MosqCluster.hlp
