import Mathlib.Data.List.Infix
import MosqCluster.Helper.StringHelper.Basic

/-!
# Looking for a text

`String::Exist` of `helper/string_helper.cpp`, by which `Unicode::From` chooses a decoder. Its loop
never goes back in the text that it looks for: after a character that does not match, it goes on
with the characters that are left of the text, so that these need not be adjacent.

## Main definitions

* `String.exist`;
* `FindsText`: a text is found where it occurs.

## Main results

* `String.exist_eq_true_iff`: what is found is a subsequence;
* `findsText_iff`: when that is the same.
-/

namespace MosqCluster.hlp

open scoped List

/-- `tolower`, for the characters of ASCII. -/
def tolower (b : UInt8) : UInt8 := if 65 ≤ b ∧ b ≤ 90 then b + 32 else b

/-- The loop of `Exist` over the characters of the string, with the index `j` of the text. -/
def existLoop (eq : UInt8 → UInt8 → Bool) (sub : Bytes) : Bytes → Nat → Bool
  | [], _ => false
  | b :: value_, j =>
    if (charAt sub j).any (eq b) then
      if j + 1 = sub.length then true else existLoop eq sub value_ (j + 1)
    else existLoop eq sub value_ j

/-- `String::Exist`. -/
def String.exist (value_ sub : Bytes) (ignore_case : Bool) : Bool :=
  if sub.isEmpty then false
  else if value_.length < sub.length then false
  else
    existLoop (fun a b => if ignore_case then tolower a == tolower b else a == b) sub value_ 0

/-- What the loop compares the characters by. -/
def folded (ignore_case : Bool) (b : UInt8) : UInt8 := if ignore_case then tolower b else b

/-- A text is found where it occurs, and, with `ignore_case`, where it occurs in lower case. -/
def FindsText (s sub : Bytes) : Prop :=
  (String.exist s sub false = true ↔ sub <:+: s) ∧
    (String.exist s sub true = true ↔ sub.map tolower <:+: s.map tolower)

variable {s sub : Bytes}

/-- The loop finds what is left of the text as a subsequence. -/
theorem existLoop_eq_true_iff (f : UInt8 → UInt8) {j : Nat} (hj : j < sub.length) (s : Bytes) :
    existLoop (fun a b => f a == f b) sub s j = true ↔ (sub.drop j).map f <+ s.map f := by
  induction s generalizing j with
  | nil => simp [existLoop, hj]
  | cons b s ih =>
    have hdrop : sub.drop j = sub[j] :: sub.drop (j + 1) := List.drop_eq_getElem_cons hj
    rw [existLoop, charAt_of_lt hj, hdrop, List.map_cons, List.map_cons, Option.any_some]
    by_cases heq : f b = f sub[j]
    · rw [if_pos (by simpa using heq), heq, List.cons_sublist_cons]
      by_cases hlast : j + 1 = sub.length
      · -- the text ends here
        rw [if_pos hlast, List.drop_eq_nil_of_le hlast.ge]
        exact iff_of_true rfl (List.nil_sublist _)
      · rw [if_neg hlast]
        exact ih (by omega)
    · rw [if_neg (by simpa using heq), List.cons_sublist_cons', ih hj, hdrop, List.map_cons]
      exact (or_iff_left fun h => heq h.1.symm).symm

/-- What is found is a subsequence. -/
theorem String.exist_eq_true_iff (hsub : sub ≠ []) (s : Bytes) (ignore_case : Bool) :
    String.exist s sub ignore_case = true ↔
      sub.map (folded ignore_case) <+ s.map (folded ignore_case) := by
  have hloop : (fun a b => if ignore_case then tolower a == tolower b else a == b) =
      fun a b => folded ignore_case a == folded ignore_case b := by
    cases ignore_case <;> rfl
  rw [String.exist, if_neg (by simpa using hsub), hloop]
  split
  · -- a shorter string has no such subsequence
    next hlt =>
    refine iff_of_false Bool.false_ne_true fun h => ?_
    have := h.length_le
    rw [List.length_map, List.length_map] at this
    omega
  · exact existLoop_eq_true_iff _ (List.length_pos_iff.mpr hsub) s

/-- A text is found where it occurs if and only if it is a subsequence only where it occurs. -/
theorem findsText_iff (hsub : sub ≠ []) :
    FindsText s sub ↔ (sub <+ s → sub <:+: s) ∧
      (sub.map tolower <+ s.map tolower → sub.map tolower <:+: s.map tolower) := by
  have hexact := String.exist_eq_true_iff hsub s false
  have hfolded := String.exist_eq_true_iff hsub s true
  have hid : folded false = id := rfl
  have hlower : folded true = tolower := rfl
  rw [hid, List.map_id, List.map_id] at hexact
  rw [hlower] at hfolded
  rw [FindsText, hexact, hfolded]
  constructor
  · rintro ⟨h, h'⟩
    exact ⟨h.mp, h'.mp⟩
  · rintro ⟨h, h'⟩
    exact ⟨⟨h, List.IsInfix.sublist⟩, ⟨h', List.IsInfix.sublist⟩⟩

/-- A text whose first letter is also found before it. -/
theorem findsText_charset : FindsText (bytes "html; Charset=gbk") (bytes "hars") := by
  apply (findsText_iff (by decide)).mpr
  constructor
  · intro _
    decide
  · intro _
    decide

/-- The characters of the text are there, but not next to each other. -/
theorem not_findsText : ¬ ∀ s sub : Bytes, sub ≠ [] → FindsText s sub := by
  intro h
  have hfound : String.exist (bytes "axb") (bytes "ab") false = true := by decide
  have hocc := (h (bytes "axb") (bytes "ab") (by decide)).1.mp hfound
  exact absurd hocc (by decide)

end MosqCluster.hlp
