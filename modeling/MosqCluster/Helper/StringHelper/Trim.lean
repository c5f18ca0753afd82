import Mathlib.Data.List.DropRight
import MosqCluster.Helper.IniParser
import MosqCluster.Helper.StringHelper.Basic

/-!
# Trimming strings

`TripLeft`, `TripRight`, `TripAll`, `StripLeft` and `StripRight` of `helper/string_helper.cpp`, and
`Trim`, `TrimLeft` and `TrimRight` of `String`, which strip a whole text. An index is unsigned:
where it would fall below 0 it is `npos`, which is `none` here.

`TripRight` runs on from index 0 to `npos`, as its condition `i >= 0` always holds. `StripRight`
does not store the string that it has trimmed away completely.

## Main definitions

* `tripLeft`, `tripRight`, `tripAll`, `stripLeft` and `stripRight`;
* `String.trim`, `String.trimLeft` and `String.trimRight`;
* `TrimsExactly`: what is left is the string without a run of characters at an end of it.

## Main results

* `returns_stripLeft_each` and `returns_stripRight_each`: the functions that the INI parser uses;
* `trimsExactly_iff`: when trimming is exact.
-/

namespace MosqCluster.hlp

/-! ## Characters -/

/-- The unsigned number before another one. -/
def pred : Nat → Option Nat
  | 0 => none
  | n + 1 => some n

/-- A turn of the loop of `TripLeft`, from the index `i`. -/
def tripLeftTurn (str : Bytes) (ch : UInt8) (i : Nat) : Turn Nat Bytes :=
  if i < str.length then
    match charAt str i with
    | none => .fault
    | some b => if ch ≠ b then .done (str.drop i) else .next (i + 1)
  else .done (str.drop i)

/-- `TripLeft`. -/
def tripLeft (str : Bytes) (ch : UInt8) : Execution Bytes := .loop (tripLeftTurn str ch) 0

/-- A turn of the loop of `TripRight`, from the index `i`. -/
def tripRightTurn (str : Bytes) (ch : UInt8) (i : Option Nat) : Turn (Option Nat) Bytes :=
  match i with
  | none => .fault -- `str[npos]`
  | some i =>
    match charAt str i with
    | none => .fault
    | some b => if ch ≠ b then .done (str.take (i + 1)) else .next (pred i)

/-- `TripRight`. -/
def tripRight (str : Bytes) (ch : UInt8) : Execution Bytes :=
  .loop (tripRightTurn str ch) (pred str.length)

/-- `TripAll`. -/
def tripAll (str : Bytes) (ch : UInt8) : Execution Bytes :=
  (tripRight str ch).bind fun str => tripLeft str ch

/-- A turn of the second loop of `StripLeft`: the result, and the offset. -/
def stripLeftEachTurn (str value : Bytes) : Option Int32 × Nat → Turn (Option Int32 × Nat) Edit
  | (retval, off) =>
    let done := Turn.done ⟨retval, if 0 < off then str.drop off else str⟩
    if off < str.length then
      match charAt str off with
      | none => .fault
      | some b => if value.contains b then .next (addInt retval 1, off + 1) else done
    else done

/-- A turn of the second loop of `StripRight`: the result, and the offset. -/
def stripRightEachTurn (str value : Bytes) : Option Int32 × Nat → Turn (Option Int32 × Nat) Edit
  | (retval, 0) => .done ⟨retval, str⟩
  | (retval, i + 1) =>
    match charAt str i with
    | none => .fault
    | some b =>
      if value.contains b then .next (addInt retval 1, i) else .done ⟨retval, str.take (i + 1)⟩

/-! ## Texts -/

/-- A turn of the first loop of `StripLeft`. -/
def stripLeftEntireTurn (value : Bytes) (e : Edit) : Turn Edit Edit :=
  match find e.str value 0 with
  | some 0 => .next ⟨addInt e.retval 1, replace e.str 0 value.length []⟩
  | _ => .done e

/-- A turn of the first loop of `StripRight`: the string, and its length `total`. -/
def stripRightEntireTurn (value : Bytes) : Edit × Nat → Turn (Edit × Nat) Edit
  | (e, total) =>
    match rfind e.str value with
    | none => .done e
    | some fpos =>
      if value.length ≠ total - fpos then .done e
      else
        .next (⟨addInt e.retval 1, replace e.str fpos value.length []⟩, total - value.length)

/-- `StripLeft`. -/
def stripLeft (str value : Bytes) (entire : Bool) : Execution Edit :=
  if entire then .loop (stripLeftEntireTurn value) ⟨some 0, str⟩
  else .loop (stripLeftEachTurn str value) (some 0, 0)

/-- `StripRight`. -/
def stripRight (str value : Bytes) (entire : Bool) : Execution Edit :=
  if entire then .loop (stripRightEntireTurn value) (⟨some 0, str⟩, str.length)
  else .loop (stripRightEachTurn str value) (some 0, str.length)

namespace String

/-- `String::TrimLeft`. -/
def trimLeft (value_ s : Bytes) : Execution Bytes :=
  (stripLeft value_ s true).bind fun e => .pure e.str

/-- `String::TrimRight`. -/
def trimRight (value_ s : Bytes) : Execution Bytes :=
  (stripRight value_ s true).bind fun e => .pure e.str

/-- `String::Trim`. -/
def trim (value_ s : Bytes) : Execution Bytes :=
  (trimLeft value_ s).bind fun value_ => trimRight value_ s

end String

/-! ## What is left -/

section Each

variable {str value set : Bytes} {ch : UInt8}

/-- `TripLeft` takes away the run at the beginning. -/
theorem returns_tripLeft (str : Bytes) (ch : UInt8) :
    (tripLeft str ch).Returns (str.dropWhile (· == ch)) := by
  apply Execution.returns_loop_of_scan (fun done _ => done.length) (fun _ rest => rest)
  · intro done b rest hstr hb
    rw [tripLeftTurn, hstr, if_pos (by simp), charAt_of_lt (by simp)]
    simp [eq_of_beq hb]
  · intro done b rest hstr hb
    have hne : ch ≠ b := fun h => by simp [h] at hb
    rw [tripLeftTurn, hstr, if_pos (by simp), charAt_of_lt (by simp)]
    simp [hne]
  · intro _
    rw [tripLeftTurn, if_neg (by simp)]
    simp

/-- The character before the last `done` characters of a string. -/
theorem charAt_reverse {done rest : Bytes} {b : UInt8} (h : str.reverse = done ++ b :: rest) :
    charAt str rest.length = some b ∧ str.take (rest.length + 1) = (b :: rest).reverse := by
  have hstr : str = (rest.reverse ++ [b]) ++ done.reverse := by
    rw [← List.reverse_reverse str, h]
    simp
  have hlen : rest.length = rest.reverse.length := (List.length_reverse).symm
  constructor
  · rw [hstr, hlen, charAt_of_lt (by simp)]
    simp
  · have htake : rest.length + 1 = (rest.reverse ++ [b]).length := by simp
    rw [hstr, htake, List.take_left, List.reverse_cons]

/-- `TripRight` takes away the run at the end, where that is not the whole string. -/
theorem returns_tripRight (h : ∃ b ∈ str, b ≠ ch) :
    (tripRight str ch).Returns (str.rdropWhile (· == ch)) := by
  have hloop : (tripRight str ch) =
      .loop (tripRightTurn str ch) (pred str.reverse.length) := by
    rw [List.length_reverse]
    rfl
  rw [hloop]
  apply Execution.returns_loop_of_scan (fun _ rest => pred rest.length)
    (fun _ rest => rest.reverse)
  · intro done b rest hstr hb
    simp [tripRightTurn, pred, (charAt_reverse hstr).1, eq_of_beq hb]
  · intro done b rest hstr hb
    have hne : ch ≠ b := fun h => by simp [h] at hb
    simp [tripRightTurn, pred, (charAt_reverse hstr).1, (charAt_reverse hstr).2, hne]
  · -- the loop does not come to the beginning of the string
    intro hall
    obtain ⟨b, hmem, hb⟩ := h
    exact absurd (hall b (List.mem_reverse.mpr hmem)) (by simpa using hb)

/-- A string of one character only is read outside of. -/
theorem faults_tripRight (h : ¬ ∃ b ∈ str, b ≠ ch) : (tripRight str ch).Faults := by
  have hall : ∀ b ∈ str, b = ch := by simpa using h
  have hloop : ∀ n ≤ str.length, (Execution.loop (tripRightTurn str ch) (pred n)).Faults := by
    intro n
    induction n with
    | zero => exact fun _ => Execution.faults_loop_of_fault rfl
    | succ n ih =>
      intro hn
      have hturn : tripRightTurn str ch (pred (n + 1)) = .next (pred n) := by
        simp [tripRightTurn, pred, charAt_of_lt (Nat.lt_of_succ_le hn),
          hall _ (List.getElem_mem _)]
      exact Execution.faults_loop_of_next hturn (ih (Nat.le_of_succ_le hn))
  exact hloop str.length le_rfl

/-- `TripAll` takes away both runs, where `TripRight` returns. -/
theorem returns_tripAll (h : ∃ b ∈ str, b ≠ ch) :
    (tripAll str ch).Returns ((str.rdropWhile (· == ch)).dropWhile (· == ch)) :=
  (returns_tripRight h).bind.mpr (returns_tripLeft _ ch)

/-- `StripLeft` takes away the run at the beginning, and counts it. -/
theorem returns_stripLeft_each (str value : Bytes) :
    (stripLeft str value false).Returns
      ⟨counted (str.takeWhile (value.contains ·)).length, MosqCluster.stripLeft str value⟩ := by
  apply Execution.returns_loop_of_scan
    (fun done _ => (counted done.length, done.length))
    (fun done rest => (⟨counted done.length, rest⟩ : Edit))
  · intro done b rest hstr hb
    rw [stripLeftEachTurn, hstr, if_pos (by simp), charAt_of_lt (by simp), addInt_counted_one]
    simp [List.contains_iff_mem.mp hb]
  · intro done b rest hstr hb
    have hmem : b ∉ value := by simpa using hb
    rw [stripLeftEachTurn, hstr, if_pos (by simp), charAt_of_lt (by simp)]
    rcases done with _ | ⟨c, done⟩ <;> simp [hmem]
  · intro _
    rw [stripLeftEachTurn, if_neg (by simp)]
    rcases str with _ | ⟨c, str⟩ <;> simp

/-- `StripRight` takes away the run at the end, unless that is the whole string, and counts it. -/
theorem returns_stripRight_each (str value : Bytes) :
    (stripRight str value false).Returns
      ⟨counted (str.rtakeWhile (value.contains ·)).length, MosqCluster.stripRight str value⟩ := by
  have hloop : stripRight str value false =
      .loop (stripRightEachTurn str value) (some 0, str.reverse.length) := by
    rw [List.length_reverse]
    rfl
  have hresult : (⟨counted (str.rtakeWhile (value.contains ·)).length,
      MosqCluster.stripRight str value⟩ : Edit) =
      ⟨counted (str.reverse.takeWhile (value.contains ·)).length,
        if (str.reverse.dropWhile (value.contains ·)).isEmpty then str
        else (str.reverse.dropWhile (value.contains ·)).reverse⟩ := by
    simp [MosqCluster.stripRight, List.rdropWhile, List.rtakeWhile]
  rw [hloop, hresult]
  apply Execution.returns_loop_of_scan
    (fun done rest => (counted done.length, rest.length))
    (fun done rest => (⟨counted done.length, if rest.isEmpty then str else rest.reverse⟩ : Edit))
  · intro done b rest hstr hb
    rw [List.length_cons, stripRightEachTurn, (charAt_reverse hstr).1, addInt_counted_one]
    simp [List.contains_iff_mem.mp hb]
  · intro done b rest hstr hb
    have hmem : b ∉ value := by simpa using hb
    rw [List.length_cons, stripRightEachTurn, (charAt_reverse hstr).1, (charAt_reverse hstr).2]
    simp [hmem]
  · intro _
    rfl

end Each

/-! ## When trimming is exact -/

/-- The functions leave the string without its run of the given characters at one end or at both
ends, and the last two return the length of the run. -/
structure TrimsExactly (str : Bytes) (ch : UInt8) (set : Bytes) : Prop where
  tripLeft : (tripLeft str ch).Returns (str.dropWhile (· == ch))
  tripRight : (tripRight str ch).Returns (str.rdropWhile (· == ch))
  tripAll : (tripAll str ch).Returns ((str.rdropWhile (· == ch)).dropWhile (· == ch))
  stripLeft : ∃ e, (stripLeft str set false).Returns e ∧
    e.str = str.dropWhile (set.contains ·) ∧
    IsNumber e.retval (str.takeWhile (set.contains ·)).length
  stripRight : ∃ e, (stripRight str set false).Returns e ∧
    e.str = str.rdropWhile (set.contains ·) ∧
    IsNumber e.retval (str.rtakeWhile (set.contains ·)).length

/-- Neither the character nor the set trims the string away completely, and the runs are no longer
than an `int` can say. -/
structure Trimmable (str : Bytes) (ch : UInt8) (set : Bytes) : Prop where
  keeps_ch : ∃ b ∈ str, b ≠ ch
  keeps_set : ∃ b ∈ str, b ∉ set
  left : (str.takeWhile (set.contains ·)).length < 2 ^ 31
  right : (str.rtakeWhile (set.contains ·)).length < 2 ^ 31

variable {str set : Bytes} {ch : UInt8}

/-- `StripRight` stores what it has trimmed unless that is the whole of a string. -/
theorem stripRight_eq_rdropWhile_iff (hstr : str ≠ []) :
    MosqCluster.stripRight str set = str.rdropWhile (set.contains ·) ↔ ∃ b ∈ str, b ∉ set := by
  rw [MosqCluster.stripRight]
  by_cases hall : str.rdropWhile (set.contains ·) = []
  · have hmem : ∀ b ∈ str, b ∈ set := by simpa using List.rdropWhile_eq_nil_iff.mp hall
    simp only [hall, List.isEmpty_nil, if_true]
    refine iff_of_false hstr ?_
    rintro ⟨b, hb, hnot⟩
    exact hnot (hmem b hb)
  · rw [if_neg (by simpa using hall)]
    refine iff_of_true rfl ?_
    simpa using mt List.rdropWhile_eq_nil_iff.mpr hall

/-- Trimming is exact where something is left. -/
theorem trimsExactly_iff : TrimsExactly str ch set ↔ Trimmable str ch set := by
  constructor
  · rintro ⟨-, hright, -, ⟨e, heLeft, -, hleft⟩, ⟨e', heRight, hstr, hnum⟩⟩
    have hch : ∃ b ∈ str, b ≠ ch := by
      by_contra hch
      exact (faults_tripRight hch).not_returns hright
    have hne : str ≠ [] := by
      rintro rfl
      obtain ⟨b, hb, -⟩ := hch
      cases hb
    obtain rfl := heRight.unique (returns_stripRight_each str set)
    exact ⟨hch, (stripRight_eq_rdropWhile_iff hne).mp hstr, hleft.lt, hnum.lt⟩
  · rintro ⟨hch, hset, hleft, hright⟩
    have hne : str ≠ [] := by
      rintro rfl
      obtain ⟨b, hb, -⟩ := hch
      cases hb
    exact ⟨returns_tripLeft str ch, returns_tripRight hch, returns_tripAll hch,
      ⟨_, returns_stripLeft_each str set, rfl, isNumber_counted_iff.mpr hleft⟩,
      ⟨_, returns_stripRight_each str set, (stripRight_eq_rdropWhile_iff hne).mpr hset,
        isNumber_counted_iff.mpr hright⟩⟩

/-- Nothing is left of a string of blanks. -/
theorem not_trimsExactly : ¬ ∀ str ch set, TrimsExactly str ch set := by
  intro h
  have hblank : ¬ ∃ b ∈ bytes "  ", b ≠ 32 := by decide
  exact (faults_tripRight hblank).not_returns (h (bytes "  ") 32 (bytes " ")).tripRight

end MosqCluster.hlp
