import Mathlib.Data.List.Infix
import MosqCluster.Helper.StringHelper.Basic

/-!
# Removing text

`RemoveAll` of `helper/string_helper.cpp`. With `entire`, a search goes on one byte behind the
place of a removed occurrence, where the text from behind it has moved to: the byte there is
skipped, and an occurrence that begins with it is left in the string.

## Main definitions

* `removeAll`: both loops;
* `scanPieces`: what the first loop leaves between the occurrences that it removes;
* `RemovesAll`: what `RemoveAll` is meant to do, and `Removable`, the condition.

## Main results

* `returns_removeAll_entire` and `returns_removeAll_each`: what the loops leave;
* `removesAll_iff`: the condition is enough, and exact for a text that does not overlap itself.
-/

namespace MosqCluster.hlp

open Occurrences

/-- A turn of the loop over the occurrences. -/
def removeEntireTurn (value : Bytes) (s : Scan) : Turn Scan Edit :=
  match find s.str value s.offset with
  | none => .done s.toEdit
  | some fpos => .next ⟨⟨addInt s.retval 1, replace s.str fpos value.length []⟩, fpos + 1⟩

/-- A turn of the loop over the characters of the value, of which the offset is the index. -/
def removeEachTurn (value : Bytes) (s : Scan) : Turn Scan Edit :=
  if s.offset < value.length then
    match charAt value s.offset with
    | none => .fault
    | some b =>
      let kept := s.str.filter (· ≠ b)
      .next ⟨⟨addInt s.retval (s.str.length - kept.length), kept⟩, s.offset + 1⟩
  else .done s.toEdit

/-- `RemoveAll`. -/
def removeAll (str value : Bytes) (entire : Bool) : Execution Edit :=
  if entire then .loop (removeEntireTurn value) ⟨⟨some 0, str⟩, 0⟩
  else .loop (removeEachTurn value) ⟨⟨some 0, str⟩, 0⟩

/-- `RemoveAll` removes every occurrence of the value, from the left to the right, or every
character of it, and returns the number of what it has removed. -/
structure RemovesAll (str value : Bytes) : Prop where
  entire : ∃ e, (removeAll str value true).Returns e ∧ e.str = (pieces value str).flatten ∧
    IsNumber e.retval ((pieces value str).length - 1)
  each : ∃ e, (removeAll str value false).Returns e ∧
    e.str = str.filter (fun b => !value.contains b) ∧
    IsNumber e.retval (str.countP (value.contains ·))

/-! ## The occurrences -/

/-- What the loop leaves between the occurrences that it removes. The byte behind an occurrence
begins none. -/
def scanPieces (value str : Bytes) : List Bytes :=
  match _ : str.dropInfix? value with
  | none => [str]
  | some (before, []) => [before, []]
  | some (before, b :: after) => before :: (scanPieces value after).modifyHead (b :: ·)
termination_by str.length
decreasing_by
  have hlen := congrArg List.length (eq_of_cut ‹_›)
  rw [List.length_append, List.length_append, List.length_cons] at hlen
  omega

variable {str value before after : Bytes} {b : UInt8}

theorem scanPieces_of_none (h : str.dropInfix? value = none) : scanPieces value str = [str] := by
  rw [scanPieces]
  split
  · rfl
  · next heq => cases h.symm.trans heq
  · next heq => cases h.symm.trans heq

theorem scanPieces_of_end (h : str.dropInfix? value = some (before, [])) :
    scanPieces value str = [before, []] := by
  rw [scanPieces]
  split
  · next heq => cases h.symm.trans heq
  · next heq =>
    cases h.symm.trans heq
    rfl
  · next heq => cases h.symm.trans heq

theorem scanPieces_of_cut (h : str.dropInfix? value = some (before, b :: after)) :
    scanPieces value str = before :: (scanPieces value after).modifyHead (b :: ·) := by
  rw [scanPieces]
  split
  · next heq => cases h.symm.trans heq
  · next heq => cases h.symm.trans heq
  · next heq =>
    cases h.symm.trans heq
    rfl

/-- A string is scanned again from one byte behind the cut on. -/
theorem scan_induction (value : Bytes) {motive : Bytes → Prop}
    (last : ∀ str, str.dropInfix? value = none → motive str)
    (end_ : ∀ str before, str.dropInfix? value = some (before, []) → motive str)
    (cut : ∀ str before b after, str.dropInfix? value = some (before, b :: after) →
      motive after → motive str)
    (str : Bytes) : motive str := by
  induction hlen : str.length using Nat.strongRecOn generalizing str with
  | _ n ih =>
    cases h : str.dropInfix? value with
    | none => exact last str h
    | some parts =>
      obtain ⟨before, _ | ⟨b, after⟩⟩ := parts
      · exact end_ str before h
      · refine cut str before b after h (ih after.length ?_ after rfl)
        have hcut := congrArg List.length (eq_of_cut h)
        rw [List.length_append, List.length_append, List.length_cons] at hcut
        omega

theorem scanPieces_ne_nil (value str : Bytes) : scanPieces value str ≠ [] := by
  cases h : str.dropInfix? value with
  | none => simp [scanPieces_of_none h]
  | some parts =>
    obtain ⟨before, _ | ⟨b, after⟩⟩ := parts
    · simp [scanPieces_of_end h]
    · simp [scanPieces_of_cut h]

theorem flatten_modifyHead {l : List Bytes} (hl : l ≠ []) (b : UInt8) :
    (l.modifyHead (b :: ·)).flatten = b :: l.flatten := by
  obtain ⟨piece, l, rfl⟩ := List.exists_cons_of_ne_nil hl
  simp

/-- The turn of the loop that removes the first occurrence behind the offset. -/
theorem removeEntireTurn_of_cut (done rest : Bytes) (n : Nat)
    (h : rest.dropInfix? value = some (before, after)) :
    removeEntireTurn value ⟨⟨counted n, done ++ rest⟩, done.length⟩ =
      .next ⟨⟨counted (n + 1), done ++ before ++ after⟩, (done ++ before).length + 1⟩ := by
  have hreplace := replace_append (done ++ before) value after []
  rw [List.append_nil, List.length_append] at hreplace
  rw [removeEntireTurn, find_append, h, Option.map_some, addInt_counted_one]
  simp only [eq_of_cut h, ← List.append_assoc] at hreplace ⊢
  simp only [hreplace, List.length_append]

/-- The loop over the occurrences, behind what it has already scanned. -/
theorem returns_removeEntire_loop (value done rest : Bytes) (n : Nat) :
    (Execution.loop (removeEntireTurn value) ⟨⟨counted n, done ++ rest⟩, done.length⟩).Returns
      ⟨counted (n + ((scanPieces value rest).length - 1)),
        done ++ (scanPieces value rest).flatten⟩ := by
  induction rest using scan_induction value generalizing done n with
  | last rest h =>
    rw [scanPieces_of_none h]
    apply Execution.returns_loop_of_done
    rw [removeEntireTurn, find_append, h]
    simp
  | end_ rest before h =>
    -- The offset is behind the end of what is left, where nothing is found.
    rw [Execution.returns_loop_of_next (removeEntireTurn_of_cut done rest n h),
      scanPieces_of_end h]
    apply Execution.returns_loop_of_done
    rw [removeEntireTurn, find_of_lt (by simp)]
    simp
  | cut rest before b after h ih =>
    rw [Execution.returns_loop_of_next (removeEntireTurn_of_cut done rest n h),
      scanPieces_of_cut h]
    have hne := scanPieces_ne_nil value after
    have hlen := List.length_pos_iff.mpr hne
    have hstart : done ++ before ++ b :: after = (done ++ before ++ [b]) ++ after := by simp
    have hoffset : (done ++ before).length + 1 = (done ++ before ++ [b]).length := by
      simp only [List.length_append, List.length_singleton]
    rw [hstart, hoffset]
    convert ih (done ++ before ++ [b]) (n + 1) using 2
    · rw [List.length_cons, List.length_modifyHead]
      congr 1
      omega
    · rw [List.flatten_cons, flatten_modifyHead hne]
      simp only [List.append_assoc, List.cons_append, List.nil_append]

/-- What `RemoveAll` leaves, and returns, with `entire`. -/
theorem returns_removeAll_entire (str value : Bytes) :
    (removeAll str value true).Returns
      ⟨counted ((scanPieces value str).length - 1), (scanPieces value str).flatten⟩ := by
  have h := returns_removeEntire_loop value [] str 0
  simp only [List.nil_append, Nat.zero_add] at h
  exact h

/-! ## The characters -/

/-- What one character takes away. -/
theorem length_sub_length_filter (str : Bytes) (b : UInt8) :
    str.length - (str.filter (· ≠ b)).length = str.count b := by
  induction str with
  | nil => rfl
  | cons x str ih =>
    have hle := List.length_filter_le (fun x => decide (x ≠ b)) str
    by_cases hx : x = b
    · simp only [hx, List.count_cons_self, List.length_cons]
      rw [List.filter_cons_of_neg (by simp)]
      omega
    · rw [List.filter_cons_of_pos (by simpa using hx), List.count_cons_of_ne hx, List.length_cons,
        List.length_cons]
      omega

/-- What several characters take away is what the first one takes away, and what the others take
away of the rest. -/
theorem countP_contains_cons (str rest : Bytes) (b : UInt8) :
    str.countP ((b :: rest).contains ·) =
      str.count b + (str.filter (· ≠ b)).countP (rest.contains ·) := by
  induction str with
  | nil => rfl
  | cons x str ih =>
    by_cases hx : x = b
    · rw [List.countP_cons_of_pos (by simp [hx]), List.filter_cons_of_neg (by simp [hx]), hx,
        List.count_cons_self, ih]
      omega
    · rw [List.filter_cons_of_pos (by simpa using hx), List.count_cons_of_ne hx, List.countP_cons,
        List.countP_cons, ih, List.contains_cons]
      simp only [hx, beq_iff_eq, Bool.or_eq_true, false_or]
      omega

/-- The loop over the characters, from an index on. -/
theorem returns_removeEach_loop (done rest str : Bytes) (n : Nat)
    (hn : n + str.countP (rest.contains ·) < 2 ^ 31) :
    (Execution.loop (removeEachTurn (done ++ rest)) ⟨⟨counted n, str⟩, done.length⟩).Returns
      ⟨counted (n + str.countP (rest.contains ·)), str.filter (fun b => !rest.contains b)⟩ := by
  induction rest generalizing done str n with
  | nil =>
    apply Execution.returns_loop_of_done
    rw [removeEachTurn, if_neg (by simp)]
    simp
  | cons b rest ih =>
    rw [countP_contains_cons] at hn
    have hturn : removeEachTurn (done ++ b :: rest) ⟨⟨counted n, str⟩, done.length⟩ =
        .next ⟨⟨counted (n + str.count b), str.filter (· ≠ b)⟩, done.length + 1⟩ := by
      have hchar : charAt (done ++ b :: rest) done.length = some b := by
        rw [charAt_of_lt (by simp)]
        simp
      rw [removeEachTurn, if_pos (by simp), hchar]
      simp only [length_sub_length_filter]
      rw [addInt_counted (by omega)]
    have hstart : done ++ b :: rest = (done ++ [b]) ++ rest := by simp
    have hoffset : done.length + 1 = (done ++ [b]).length := by
      simp only [List.length_append, List.length_singleton]
    rw [Execution.returns_loop_of_next hturn, hstart, hoffset]
    -- The other characters are removed from what the first one has left.
    convert ih (done ++ [b]) (str.filter (· ≠ b)) (n + str.count b) (by omega) using 2
    · rw [countP_contains_cons, Nat.add_assoc]
    · rw [List.filter_filter]
      apply List.filter_congr
      intro x _
      rw [List.contains_cons]
      by_cases hx : x = b <;> simp [hx]

/-- What `RemoveAll` leaves, and returns, without `entire`. -/
theorem returns_removeAll_each (h : str.countP (value.contains ·) < 2 ^ 31) :
    (removeAll str value false).Returns
      ⟨counted (str.countP (value.contains ·)), str.filter (fun b => !value.contains b)⟩ := by
  have hloop := returns_removeEach_loop [] value str 0 (by omega)
  simp only [List.nil_append, Nat.zero_add] at hloop
  exact hloop

/-! ## When everything is removed -/

/-- No occurrence begins where the one before it ends, and the numbers fit an `int`. -/
structure Removable (str value : Bytes) : Prop where
  /-- The pieces between two occurrences are not empty. -/
  apart : ∀ piece ∈ (pieces value str).tail.dropLast, piece ≠ []
  occurrences : (pieces value str).length - 1 < 2 ^ 31
  characters : str.countP (value.contains ·) < 2 ^ 31

/-- Behind a cut that is followed by an occurrence, the next piece is empty. -/
theorem not_isPrefix_of_apart (hvalue : value ≠ [])
    (hcut : str.dropInfix? value = some (before, after))
    (hapart : ∀ piece ∈ (pieces value str).tail.dropLast, piece ≠ []) : ¬ value <+: after := by
  rintro ⟨rest, rfl⟩
  have hne := pieces_ne_nil hvalue rest
  rw [pieces_of_cut hvalue hcut, pieces_of_cut hvalue (cut_append_left value rest),
    List.tail_cons, List.dropLast_cons_of_ne_nil hne] at hapart
  exact hapart [] List.mem_cons_self rfl

/-- The pieces behind a cut that no occurrence follows. -/
theorem pieces_of_apart (hvalue : value ≠ [])
    (hcut : str.dropInfix? value = some (before, b :: after)) (hb : ¬ value <+: b :: after) :
    pieces value str = before :: (pieces value after).modifyHead (b :: ·) := by
  rw [pieces_of_cut hvalue hcut, pieces_cons hvalue hb]

theorem mem_dropLast_modifyHead {l : List Bytes} {piece : Bytes} :
    piece ∈ ((l.modifyHead (b :: ·)).dropLast) → piece ≠ [] ∨ piece ∈ l.tail.dropLast := by
  rcases l with _ | ⟨first, _ | ⟨second, l⟩⟩
  · simp
  · simp
  · intro h
    rw [List.modifyHead_cons, List.dropLast_cons_of_ne_nil (by simp), List.mem_cons] at h
    obtain rfl | h := h
    · exact .inl (by simp)
    · exact .inr h

/-- Where no occurrence begins where another one ends, the byte that is skipped does not matter. -/
theorem scanPieces_eq_pieces (hvalue : value ≠ [])
    (hapart : ∀ piece ∈ (pieces value str).tail.dropLast, piece ≠ []) :
    scanPieces value str = pieces value str := by
  induction str using scan_induction value with
  | last str h => rw [scanPieces_of_none h, pieces_of_none h]
  | end_ str before h =>
    have hnil : ([] : Bytes).dropInfix? value = none :=
      cut_eq_none_of_disjoint hvalue fun _ _ => List.not_mem_nil
    rw [scanPieces_of_end h, pieces_of_cut hvalue h, pieces_of_none hnil]
  | cut str before b after h ih =>
    have hpieces := pieces_of_apart hvalue h (not_isPrefix_of_apart hvalue h hapart)
    rw [scanPieces_of_cut h, hpieces, ih]
    intro piece hpiece
    apply hapart
    -- The pieces behind the first one are the same in both strings.
    rw [hpieces, List.tail_cons]
    apply List.mem_of_mem_tail
    rw [List.tail_dropLast, List.tail_modifyHead]
    exact hpiece

/-- The loop goes past the rest of an occurrence whose first byte it has skipped. -/
theorem length_scanPieces_append (hborder : Unbordered value) {t : Bytes} (hvalue : value = b :: t)
    (rest : Bytes) : (scanPieces value (t ++ rest)).length = (scanPieces value rest).length := by
  have hcut := hborder.cut_tail_append hvalue rest
  cases h : rest.dropInfix? value with
  | none => rw [scanPieces_of_none h, scanPieces_of_none (by rw [hcut, h]; rfl)]; rfl
  | some parts =>
    rw [h, Option.map_some] at hcut
    obtain ⟨before, _ | ⟨c, after⟩⟩ := parts
    · rw [scanPieces_of_end h, scanPieces_of_end hcut]
      rfl
    · rw [scanPieces_of_cut h, scanPieces_of_cut hcut, List.length_cons, List.length_cons]

/-- The loop never removes too much, and of a text that does not overlap itself it removes too
little as soon as an occurrence begins where another one ends. -/
theorem length_scanPieces (hvalue : value ≠ []) (hborder : Unbordered value) (str : Bytes) :
    (scanPieces value str).length ≤ (pieces value str).length ∧
      ((scanPieces value str).length = (pieces value str).length →
        ∀ piece ∈ (pieces value str).tail.dropLast, piece ≠ []) := by
  induction hlen : str.length using Nat.strongRecOn generalizing str with
  | _ n ih =>
    cases h : str.dropInfix? value with
    | none =>
      rw [scanPieces_of_none h, pieces_of_none h]
      simp
    | some parts =>
      have hlt := hlen ▸ length_lt_of_cut hvalue h
      obtain ⟨before, _ | ⟨b, after⟩⟩ := parts
      · have hnil : ([] : Bytes).dropInfix? value = none :=
          cut_eq_none_of_disjoint hvalue fun _ _ => List.not_mem_nil
        rw [scanPieces_of_end h, pieces_of_cut hvalue h, pieces_of_none hnil]
        simp
      · rw [List.length_cons] at hlt
        by_cases hb : value <+: b :: after
        · -- The next occurrence is skipped, and with it everything else is as behind it.
          obtain ⟨rest, hrest⟩ := hb
          obtain ⟨c, t, hct⟩ := List.exists_cons_of_ne_nil hvalue
          obtain ⟨rfl, rfl⟩ : c = b ∧ t ++ rest = after := by
            rw [hct, List.cons_append] at hrest
            exact List.cons.inj hrest
          have hle := (ih rest.length (by rw [List.length_append] at hlt; omega) rest rfl).1
          rw [scanPieces_of_cut h, pieces_of_cut hvalue h, ← hrest,
            pieces_of_cut hvalue (cut_append_left value rest)]
          simp only [List.length_cons, List.length_modifyHead,
            length_scanPieces_append hborder hct rest]
          omega
        · obtain ⟨hle, heq⟩ := ih after.length (by omega) after rfl
          rw [scanPieces_of_cut h, pieces_of_apart hvalue h hb]
          simp only [List.length_cons, List.length_modifyHead, List.tail_cons]
          refine ⟨by omega, fun hsame piece hpiece => ?_⟩
          rcases mem_dropLast_modifyHead hpiece with hne | hmem
          · exact hne
          · exact heq (by omega) piece hmem

/-- A counter that is a number has counted up to it. -/
theorem IsNumber.eq_of_counted {m n : Nat} (h : IsNumber (counted m) n) : m = n := by
  by_cases hm : m < 2 ^ 31
  · rw [IsNumber, isNumber_counted_iff.mpr hm] at h
    exact Int.ofNat.inj (Option.some.inj h)
  · rw [IsNumber, counted, if_neg hm] at h
    cases h

/-- `RemoveAll` removes everything where no occurrence begins where the one before it ends and the
numbers fit an `int`; where the value does not overlap itself, only there. -/
theorem removesAll_iff (hvalue : value ≠ []) :
    (Removable str value → RemovesAll str value) ∧
      (Unbordered value → RemovesAll str value → Removable str value) := by
  constructor
  · rintro ⟨hapart, hocc, hchars⟩
    have hentire := returns_removeAll_entire str value
    rw [scanPieces_eq_pieces hvalue hapart] at hentire
    refine ⟨⟨_, hentire, rfl, isNumber_counted_iff.mpr hocc⟩, ?_⟩
    exact ⟨_, returns_removeAll_each hchars, rfl, isNumber_counted_iff.mpr hchars⟩
  · rintro hborder ⟨⟨e, hret, -, hnum⟩, ⟨_, -, -, heach⟩⟩
    obtain rfl := hret.unique (returns_removeAll_entire str value)
    have hsame := hnum.eq_of_counted
    have hscan := List.length_pos_iff.mpr (scanPieces_ne_nil value str)
    have hpieces := List.length_pos_iff.mpr (pieces_ne_nil hvalue str)
    exact ⟨(length_scanPieces hvalue hborder str).2 (by omega), hnum.lt, heach.lt⟩

/-- Two occurrences that do not touch. -/
theorem removesAll_aba : RemovesAll (bytes "aba") (bytes "a") := by
  have hfirst : (bytes "aba").dropInfix? (bytes "a") = some ([], bytes "ba") := by decide
  have hsecond : (bytes "ba").dropInfix? (bytes "a") = some (bytes "b", []) := by decide
  have hpieces : pieces (bytes "a") (bytes "aba") = [[], bytes "b", []] := by
    rw [pieces_of_cut (by decide) hfirst, pieces_of_cut (by decide) hsecond,
      pieces_of_none (by decide)]
  apply (removesAll_iff (by decide)).1
  refine ⟨?_, ?_, by decide⟩
  · rw [hpieces]
    simp [bytes]
  · rw [hpieces]
    decide

/-- Of two occurrences that touch, the second one is left. -/
theorem not_removesAll : ¬ ∀ str value : Bytes, value ≠ [] → RemovesAll str value := by
  intro h
  obtain ⟨e, hret, hstr, -⟩ := (h (bytes "aa") (bytes "a") (by decide)).entire
  have hleft : (removeAll (bytes "aa") (bytes "a") true).Returns ⟨some 1, bytes "a"⟩ :=
    ⟨3, by decide⟩
  have hfirst : (bytes "aa").dropInfix? (bytes "a") = some ([], bytes "a") := by decide
  have hsecond : (bytes "a").dropInfix? (bytes "a") = some ([], []) := by decide
  rw [hret.unique hleft, pieces_of_cut (by decide) hfirst, pieces_of_cut (by decide) hsecond,
    pieces_of_none (by decide)] at hstr
  exact absurd hstr (by decide)

end MosqCluster.hlp
