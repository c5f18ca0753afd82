import MosqCluster.Helper.StringHelper.Remove
import MosqCluster.Helper.StringHelper.Replace
import MosqCluster.Helper.StringHelper.Trim

/-!
# Which loops end

The loops of `helper/string_helper.cpp` that edit the string over which they run. A search for an
empty text always finds one, so that `StripLeft`, `StripRight` and `ReplaceAll` go on for ever with
an empty text; `RemoveAll` ends, as its offset leaves the string. The other loop that does not end
is the one of `TripRight`, which leaves the string.

## Main definitions

* `LoopsEnd`: all loops end, within the string.

## Main results

* `loopsEnd_iff`: when they do.
-/

namespace MosqCluster.hlp

open Execution

/-- Every editing function returns. -/
structure LoopsEnd (str value repl : Bytes) (ch : UInt8) : Prop where
  removeAll : ∀ entire, ∃ e, (removeAll str value entire).Returns e
  stripLeft : ∀ entire, ∃ e, (stripLeft str value entire).Returns e
  stripRight : ∀ entire, ∃ e, (stripRight str value entire).Returns e
  replaceAll : ∃ e, (replaceAll str value repl).Returns e
  tripLeft : ∃ s, (tripLeft str ch).Returns s
  tripRight : ∃ s, (tripRight str ch).Returns s
  trimLeft : ∃ s, (String.trimLeft str value).Returns s
  trimRight : ∃ s, (String.trimRight str value).Returns s
  trim : ∃ s, (String.trim str value).Returns s

variable {str value repl : Bytes} {ch : UInt8}

/-! ## The loops that always end -/

/-- The loop over the characters of the value ends with the value. -/
theorem exists_returns_removeAll_each (str value : Bytes) :
    ∃ e, (removeAll str value false).Returns e := by
  apply exists_returns_of_variant (I := fun _ => True) (fun s => value.length - s.offset) _ trivial
  intro s _
  by_cases hlt : s.offset < value.length
  · right
    rw [removeEachTurn, if_pos hlt, charAt_of_lt hlt]
    exact ⟨_, rfl, trivial, by dsimp only; omega⟩
  · left
    exact ⟨_, if_neg hlt⟩

/-- `RemoveAll` ends, also for an empty value. -/
theorem exists_returns_removeAll (str value : Bytes) (entire : Bool) :
    ∃ e, (removeAll str value entire).Returns e := by
  cases entire with
  | true => exact ⟨_, returns_removeAll_entire str value⟩
  | false => exact exists_returns_removeAll_each str value

/-! ## The loops that an empty text keeps going -/

/-- `StripLeft` ends where it has something to search for. -/
theorem exists_returns_stripLeft_entire (str : Bytes) (hvalue : value ≠ []) :
    ∃ e, (stripLeft str value true).Returns e := by
  apply exists_returns_of_variant (I := fun _ => True) (fun e => e.str.length) _ trivial
  intro e _
  rw [stripLeftEntireTurn, find_zero]
  cases hcut : e.str.dropInfix? value with
  | none => exact .inl ⟨e, rfl⟩
  | some cut =>
    obtain ⟨_ | ⟨b, before⟩, after⟩ := cut
    · -- the value is taken away from the beginning
      right
      have hreplace := replace_append [] value after []
      rw [← Occurrences.eq_of_cut hcut] at hreplace
      refine ⟨_, rfl, trivial, ?_⟩
      rw [List.length_nil] at hreplace
      simpa [hreplace] using Occurrences.length_lt_of_cut hvalue hcut
    · exact .inl ⟨e, rfl⟩

/-- `StripLeft` takes an empty text away again and again. -/
theorem diverges_stripLeft_nil (str : Bytes) : (stripLeft str [] true).Diverges := by
  apply diverges_of_invariant (I := fun _ => True) _ trivial
  intro e _
  refine ⟨⟨addInt e.retval 1, replace e.str 0 0 []⟩, ?_, trivial⟩
  rw [stripLeftEntireTurn, find_zero, List.dropInfix?_nil]
  rfl

/-- `StripRight` ends where it has something to search for. -/
theorem exists_returns_stripRight_entire (str : Bytes) (hvalue : value ≠ []) :
    ∃ e, (stripRight str value true).Returns e := by
  apply exists_returns_of_variant (I := fun s => s.2 = s.1.str.length) (fun s => s.2) _ rfl
  rintro ⟨e, total⟩ htotal
  obtain rfl : total = e.str.length := htotal
  rw [stripRightEntireTurn]
  cases hfind : rfind e.str value with
  | none => exact .inl ⟨e, rfl⟩
  | some fpos =>
    obtain ⟨before, after, hstr, rfl⟩ := eq_append_of_rfind hfind
    by_cases hend : value.length ≠ e.str.length - before.length
    · exact .inl ⟨e, if_pos hend⟩
    · right
      -- The value stands at the end, and is taken away there.
      have hlen := congrArg List.length hstr
      have hpos := List.length_pos_iff.mpr hvalue
      simp only [List.length_append] at hlen
      have hreplace := replace_append before value after []
      rw [← hstr] at hreplace
      have hafter : after = [] := List.length_eq_zero_iff.mp (by omega)
      refine ⟨_, if_neg hend, ?_, by dsimp only; omega⟩
      simp only [hreplace, hafter, List.append_nil]
      omega

/-- `StripRight` takes an empty text away again and again. -/
theorem diverges_stripRight_nil (str : Bytes) : (stripRight str [] true).Diverges := by
  apply diverges_of_invariant (I := fun s => s.2 = s.1.str.length) _ rfl
  rintro ⟨e, total⟩ htotal
  obtain rfl : total = e.str.length := htotal
  have hfind : rfind e.str [] = some e.str.length := by
    have h := rfind_append e.str []
    rwa [List.append_nil] at h
  refine ⟨(⟨addInt e.retval 1, replace e.str e.str.length 0 []⟩, e.str.length), ?_, ?_⟩
  · rw [stripRightEntireTurn, hfind]
    simp
  · simp [replace]

/-- `ReplaceAll` puts a replacement for an empty text into the string again and again. -/
theorem diverges_replaceAll_nil (str repl : Bytes) : (replaceAll str [] repl).Diverges := by
  apply diverges_of_invariant (I := fun s => s.offset ≤ s.str.length) _ (Nat.zero_le _)
  intro s hs
  have hfind : find s.str [] s.offset = some s.offset := by
    rw [find, if_pos hs, List.dropInfix?_nil]
    rfl
  refine ⟨_, by rw [replaceAllTurn, hfind], ?_⟩
  -- The offset stays within the string, which grows by as much as the offset.
  simp only [replace, List.length_append, List.length_take, List.length_drop]
  simp only [List.length_nil]
  omega

namespace String

theorem exists_returns_trimLeft (value_ : Bytes) (hvalue : value ≠ []) :
    ∃ s, (trimLeft value_ value).Returns s := by
  obtain ⟨e, he⟩ := exists_returns_stripLeft_entire value_ hvalue
  exact ⟨e.str, he.bind.mpr (returns_pure.mpr rfl)⟩

theorem exists_returns_trimRight (value_ : Bytes) (hvalue : value ≠ []) :
    ∃ s, (trimRight value_ value).Returns s := by
  obtain ⟨e, he⟩ := exists_returns_stripRight_entire value_ hvalue
  exact ⟨e.str, he.bind.mpr (returns_pure.mpr rfl)⟩

theorem exists_returns_trim (value_ : Bytes) (hvalue : value ≠ []) :
    ∃ s, (trim value_ value).Returns s := by
  obtain ⟨s, hs⟩ := exists_returns_trimLeft value_ hvalue
  obtain ⟨s', hs'⟩ := exists_returns_trimRight s hvalue
  exact ⟨s', hs.bind.mpr hs'⟩

end String

/-! ## When they end -/

/-- All loops end where the text is not empty, and the character is not all of the string. -/
theorem loopsEnd_iff : LoopsEnd str value repl ch ↔ value ≠ [] ∧ ∃ b ∈ str, b ≠ ch := by
  constructor
  · intro h
    constructor
    · rintro rfl
      obtain ⟨e, he⟩ := h.stripLeft true
      exact (diverges_stripLeft_nil str).not_returns he
    · by_contra hch
      obtain ⟨s, hs⟩ := h.tripRight
      exact (faults_tripRight hch).not_returns hs
  · rintro ⟨hvalue, hch⟩
    constructor
    case removeAll => exact exists_returns_removeAll str value
    case stripLeft =>
      intro entire
      cases entire with
      | true => exact exists_returns_stripLeft_entire str hvalue
      | false => exact ⟨_, returns_stripLeft_each str value⟩
    case stripRight =>
      intro entire
      cases entire with
      | true => exact exists_returns_stripRight_entire str hvalue
      | false => exact ⟨_, returns_stripRight_each str value⟩
    case replaceAll => exact ⟨_, returns_replaceAll hvalue str repl⟩
    case tripLeft => exact ⟨_, returns_tripLeft str ch⟩
    case tripRight => exact ⟨_, returns_tripRight hch⟩
    case trimLeft => exact String.exists_returns_trimLeft str hvalue
    case trimRight => exact String.exists_returns_trimRight str hvalue
    case trim => exact String.exists_returns_trim str hvalue

/-- An empty text is stripped for ever. -/
theorem not_loopsEnd : ¬ ∀ str value repl ch, LoopsEnd str value repl ch := by
  intro h
  obtain ⟨e, he⟩ := (h (bytes "a") [] [] 32).stripLeft true
  exact (diverges_stripLeft_nil (bytes "a")).not_returns he

end MosqCluster.hlp
