import Mathlib.Data.List.Infix
import MosqCluster.Helper.StringHelper.Basic

/-!
# Replacing text

`ReplaceAll` and `String::Replace` of `helper/string_helper.cpp`. The second one is meant to erase
what it replaces, but the length that it erases, `olen`, is 0 and never set: the replacement is put
in front of the text, and the search that goes on behind it finds the same text again.

## Main definitions

* `replaceAll` and `String.replace`;
* `ReplacesRight`: both replace the occurrences of a text, and the first one alone.

## Main results

* `returns_replaceAll`: what `ReplaceAll` leaves;
* `String.diverges_replace`: `Replace` never ends where the text occurs;
* `replacesRight_iff`: when `Replace` does what it should.
-/

namespace MosqCluster.hlp

open Occurrences

/-- A turn of the loop of `ReplaceAll`. -/
def replaceAllTurn (old value : Bytes) (s : Scan) : Turn Scan Edit :=
  match find s.str old s.offset with
  | none => .done s.toEdit
  | some fpos =>
    .next ⟨⟨addInt s.retval 1, replace s.str fpos old.length value⟩, fpos + value.length⟩

/-- `ReplaceAll`. -/
def replaceAll (str old value : Bytes) : Execution Edit :=
  .loop (replaceAllTurn old value) ⟨⟨some 0, str⟩, 0⟩

/-- A turn of the loop of `String::Replace`: the string, and what the last search has found. -/
def String.replaceTurn (old repl : Bytes) (all : Bool) :
    Bytes × Option Nat → Turn (Bytes × Option Nat) Bytes
  | (value_, none) => .done value_
  | (value_, some fpos) =>
    let olen := 0
    let offset := fpos + repl.length
    let value_ := hlp.replace value_ fpos olen repl
    if all then .next (value_, find value_ old offset) else .done value_

/-- `String::Replace`. -/
def String.replace (value_ old repl : Bytes) (all : Bool) : Execution Bytes :=
  if old.isEmpty then .pure value_
  else .loop (String.replaceTurn old repl all) (value_, find value_ old 0)

/-- Both functions replace every occurrence, from the left to the right, and `Replace` can replace
the first one alone. -/
structure ReplacesRight (str old repl : Bytes) : Prop where
  replaceAll : ∃ retval,
    (replaceAll str old repl).Returns ⟨retval, repl.intercalate (pieces old str)⟩
  all : (String.replace str old repl true).Returns (repl.intercalate (pieces old str))
  first : (String.replace str old repl false).Returns (replaceFirst old repl str)

variable {str old value repl before after : Bytes}

/-- The loop of `ReplaceAll`, behind what it has already replaced. -/
theorem returns_replaceAll_loop (hold : old ≠ []) (done rest value : Bytes) (n : Nat) :
    (Execution.loop (replaceAllTurn old value) ⟨⟨counted n, done ++ rest⟩, done.length⟩).Returns
      ⟨counted (n + ((pieces old rest).length - 1)),
        done ++ value.intercalate (pieces old rest)⟩ := by
  induction rest using cut_induction hold generalizing done n with
  | last rest h =>
    rw [pieces_of_none h, List.intercalate_singleton]
    apply Execution.returns_loop_of_done
    rw [replaceAllTurn, find_append, h]
    rfl
  | cut rest before after h ih =>
    have hne := pieces_ne_nil hold after
    have hturn : replaceAllTurn old value ⟨⟨counted n, done ++ rest⟩, done.length⟩ =
        .next ⟨⟨counted (n + 1), (done ++ before ++ value) ++ after⟩,
          (done ++ before ++ value).length⟩ := by
      rw [replaceAllTurn, find_append, h, Option.map_some, addInt_counted_one]
      have hreplace := replace_append (done ++ before) old after value
      rw [List.length_append] at hreplace
      simp only [eq_of_cut h, ← List.append_assoc] at hreplace ⊢
      simp only [hreplace, List.length_append]
    rw [Execution.returns_loop_of_next hturn, pieces_of_cut hold h,
      List.intercalate_cons_of_ne_nil hne]
    have hlen := List.length_pos_iff.mpr hne
    -- The count and the string of the induction are those of the whole, in another order.
    convert ih (done ++ before ++ value) (n + 1) using 2
    · rw [List.length_cons]
      congr 1
      omega
    · simp only [List.append_assoc]

/-- `ReplaceAll` replaces every occurrence, from the left to the right. -/
theorem returns_replaceAll (hold : old ≠ []) (str value : Bytes) :
    (replaceAll str old value).Returns
      ⟨counted ((pieces old str).length - 1), value.intercalate (pieces old str)⟩ := by
  have h := returns_replaceAll_loop hold [] str value 0
  simp only [List.nil_append, Nat.zero_add] at h
  exact h

namespace String

/-- A text that occurs is found, and the replacement is put in front of it. -/
theorem replaceTurn_of_find (all : Bool) (before after : Bytes) :
    replaceTurn old repl all (before ++ old ++ after, some before.length) =
      if all then .next ((before ++ repl) ++ old ++ after, some (before ++ repl).length)
      else .done (before ++ repl ++ old ++ after) := by
  have hreplace := replace_append before [] (old ++ after) repl
  rw [List.append_nil, List.length_nil, ← List.append_assoc, ← List.append_assoc] at hreplace
  have hfind := find_append (before ++ repl) (old ++ after) old
  rw [cut_append_left, Option.map_some, List.length_nil, Nat.add_zero, List.length_append,
    ← List.append_assoc] at hfind
  simp only [replaceTurn, hreplace, hfind, List.length_append]

/-- Where the text occurs, the first search finds it. -/
theorem find_of_cut (h : str.dropInfix? old = some (before, after)) :
    find str old 0 = some before.length := by
  rw [find_zero, h, Option.map_some]

/-- `Replace` of every occurrence never ends where there is one. -/
theorem diverges_replace (hold : old ≠ []) (hocc : old <:+: str) (repl : Bytes) :
    (String.replace str old repl true).Diverges := by
  obtain ⟨before, after, hcut⟩ := exists_cut hocc
  rw [String.replace, if_neg (by simpa using hold), find_of_cut hcut, eq_of_cut hcut]
  -- The text is found again and again, behind one more replacement each time.
  apply Execution.diverges_of_invariant
    (I := fun s => ∃ before : Bytes, s = (before ++ old ++ after, some before.length))
  · rintro _ ⟨before, rfl⟩
    exact ⟨_, replaceTurn_of_find true before after, before ++ repl, rfl⟩
  · exact ⟨before, rfl⟩

/-- `Replace` of the first occurrence leaves it in place, behind the replacement. -/
theorem returns_replace_first (hold : old ≠ [])
    (hcut : str.dropInfix? old = some (before, after)) :
    (String.replace str old repl false).Returns (before ++ repl ++ old ++ after) := by
  rw [String.replace, if_neg (by simpa using hold), find_of_cut hcut, eq_of_cut hcut]
  exact Execution.returns_loop_of_done (replaceTurn_of_find false before after)

/-- Where the text does not occur, `Replace` leaves the string as it is. -/
theorem returns_replace_of_none (hold : old ≠ []) (h : str.dropInfix? old = none) (all : Bool) :
    (String.replace str old repl all).Returns str := by
  rw [String.replace, if_neg (by simpa using hold), find_zero, h]
  exact Execution.returns_loop_of_done rfl

end String

/-- `Replace` does what it should where there is nothing to replace. -/
theorem replacesRight_iff (hold : old ≠ []) : ReplacesRight str old repl ↔ ¬ old <:+: str := by
  constructor
  · rintro ⟨-, hall, -⟩ hocc
    exact (String.diverges_replace hold hocc repl).not_returns hall
  · intro hocc
    have hnone := cut_eq_none_iff.mpr hocc
    have hpieces : repl.intercalate (pieces old str) = str := by
      rw [pieces_of_none hnone, List.intercalate_singleton]
    refine ⟨⟨_, returns_replaceAll hold str repl⟩, ?_, ?_⟩
    · rw [hpieces]
      exact String.returns_replace_of_none hold hnone true
    · rw [replaceFirst_of_none repl hnone]
      exact String.returns_replace_of_none hold hnone false

/-- A text that does not occur. -/
theorem replacesRight_abc : ReplacesRight (bytes "abc") (bytes "x") (bytes "y") :=
  (replacesRight_iff (by decide)).mpr (by decide)

/-- `Replace` is called for a text that occurs. -/
theorem not_replacesRight :
    ¬ ∀ str old repl : Bytes, old ≠ [] → ReplacesRight str old repl := by
  intro h
  have hocc : bytes "a" <:+: bytes "a" := List.infix_rfl
  -- the replacement of all occurrences never ends
  exact (String.diverges_replace (by decide) hocc (bytes "b")).not_returns
    (h (bytes "a") (bytes "a") (bytes "b") (by decide)).all

end MosqCluster.hlp
