import MosqCluster.Helper.IniParser
import MosqCluster.Helper.StringHelper.Basic

/-!
# Splitting and joining strings

`Split` and `ToString` of the class `StringVector` of `helper/string_helper.cpp`. The loop of
`Split` goes on while a separator would fit behind the offset, so that what is behind the last
separator is left out where it is shorter than a separator. `ToString` reads the first element
before it asks whether there is one.

## Main definitions

* `StringVector.split`, and `joinLoop`, the loop of the functions `ToString`;
* `LosesNoText` and `RoundTripsTokens`.

## Main results

* `returns_split`: what `Split` gives;
* `splitsRight_iff`: when no text is lost.
-/

namespace MosqCluster.hlp

open Occurrences

/-- The loop of `ToString` over the entries from an iterator on; `none` is a look at the end. -/
def joinLoop (sp : Bytes) (append_sp : Bool) : Bytes → List Bytes → Option Bytes
  | _, [] => none
  | s, [entry] => some (if append_sp then s ++ entry ++ sp else s ++ entry)
  | s, entry :: next :: entries => joinLoop sp append_sp (s ++ entry ++ sp) (next :: entries)

namespace StringVector

/-- A turn of the loop of `Split`: the pieces, and the offset. -/
def splitTurn (s sp : Bytes) : List Bytes × Nat → Turn (List Bytes × Nat) (List Bytes)
  | (value_, offset) =>
    if offset + sp.length ≤ s.length then
      match find s sp offset with
      | none => .done (value_ ++ [s.drop offset])
      | some fpos => .next (value_ ++ [substr s offset (fpos - offset)], fpos + sp.length)
    else .done value_

/-- `StringVector::Split`. -/
def split (s sp : Bytes) : Execution (List Bytes) :=
  if s.isEmpty then .pure []
  else if sp.isEmpty then .pure [s]
  else .loop (splitTurn s sp) ([], 0)

/-- `StringVector::ToString`. -/
def toString (value_ : List Bytes) (sp : Bytes) (append_sp : Bool) : Option Bytes :=
  joinLoop sp append_sp [] value_

end StringVector

/-- The pieces, joined, are the string, or lack one separator at its end; and none of them contains
a separator. -/
def LosesNoText (s sp : Bytes) : Prop :=
  ∃ vt, (StringVector.split s sp).Returns vt ∧
    (sp.intercalate vt = s ∨ sp.intercalate vt ++ sp = s) ∧ ∀ piece ∈ vt, ¬ sp <:+: piece

/-- Tokens that are joined are split again. -/
def RoundTripsTokens (tokens : List Bytes) (sp : Bytes) : Prop :=
  ∃ s, StringVector.toString tokens sp false = some s ∧ (StringVector.split s sp).Returns tokens

/-- There are tokens, which are not empty, and no character of the separator is in them. -/
structure AreTokens (tokens : List Bytes) (sp : Bytes) : Prop where
  ne_nil : tokens ≠ []
  token_ne_nil : ∀ token ∈ tokens, token ≠ []
  free : ∀ token ∈ tokens, ∀ b ∈ sp, b ∉ token

variable {s sp : Bytes} {tokens : List Bytes}

/-! ## What `Split` gives -/

/-- The pieces without a last one that is too short. -/
def keptPieces (sp : Bytes) (vt : List Bytes) : List Bytes :=
  if sp.length ≤ (vt.getLastD []).length then vt else vt.dropLast

theorem keptPieces_cons {vt : List Bytes} (hvt : vt ≠ []) (piece : Bytes) :
    keptPieces sp (piece :: vt) = piece :: keptPieces sp vt := by
  obtain ⟨next, vt, rfl⟩ := List.exists_cons_of_ne_nil hvt
  rw [keptPieces, keptPieces, List.getLastD_cons, List.getLastD_cons, List.getLastD_cons,
    List.dropLast_cons_of_ne_nil hvt]
  split <;> rfl

/-- The loop of `Split`, from behind what it has already split. -/
theorem returns_split_loop (hsp : sp ≠ []) (value_ : List Bytes) (done rest : Bytes) :
    (Execution.loop (StringVector.splitTurn (done ++ rest) sp) (value_, done.length)).Returns
      (value_ ++ keptPieces sp (pieces sp rest)) := by
  induction rest using cut_induction hsp generalizing value_ done with
  | last rest h =>
    apply Execution.returns_loop_of_done
    rw [pieces_of_none h, StringVector.splitTurn, keptPieces, find_append, h]
    simp only [List.length_append, Nat.add_le_add_iff_left, List.getLastD_cons]
    by_cases hlen : sp.length ≤ rest.length
    · rw [if_pos hlen]
      simp [hlen]
    · simp [hlen]
  | cut rest before after h ih =>
    have hturn : StringVector.splitTurn (done ++ rest) sp (value_, done.length) =
        .next (value_ ++ [before], (done ++ before ++ sp).length) := by
      have hlen := congrArg List.length (eq_of_cut h)
      simp only [List.length_append] at hlen
      rw [StringVector.splitTurn, if_pos (by rw [List.length_append]; omega), find_append, h,
        Option.map_some]
      simp only [substr, List.drop_left, Nat.add_sub_cancel_left, List.length_append]
      rw [eq_of_cut h, List.append_assoc before, List.take_left]
    rw [Execution.returns_loop_of_next hturn, pieces_of_cut hsp h,
      keptPieces_cons (pieces_ne_nil hsp after)]
    have hstart : done ++ rest = (done ++ before ++ sp) ++ after := by
      rw [eq_of_cut h]
      simp only [List.append_assoc]
    rw [hstart]
    simpa only [List.append_assoc, List.singleton_append] using
      ih (value_ ++ [before]) (done ++ before ++ sp)

theorem pieces_nil (hsp : sp ≠ []) : pieces sp [] = [[]] :=
  pieces_of_none (cut_eq_none_of_disjoint hsp fun _ _ => List.not_mem_nil)

/-- `Split` gives the pieces, unless the last one is too short. -/
theorem returns_split (hsp : sp ≠ []) (s : Bytes) :
    (StringVector.split s sp).Returns (keptPieces sp (pieces sp s)) := by
  by_cases hs : s = []
  · subst hs
    rw [pieces_nil hsp, keptPieces, if_neg (by simpa using hsp)]
    exact Execution.returns_pure.mpr rfl
  · rw [StringVector.split, if_neg (by simpa using hs), if_neg (by simpa using hsp)]
    exact returns_split_loop hsp [] [] s

/-! ## When no text is lost -/

/-- What stands behind the last separator. -/
def lastPiece (s sp : Bytes) : Bytes := (pieces sp s).getLastD []

/-- The pieces are those before the last one, and the last one. -/
theorem pieces_eq_concat (hsp : sp ≠ []) (s : Bytes) :
    pieces sp s = (pieces sp s).dropLast ++ [lastPiece s sp] := by
  have hne := pieces_ne_nil hsp s
  rw [lastPiece, List.getLastD_eq_getLast?, List.getLast?_eq_some_getLast hne, Option.getD_some,
    List.dropLast_append_getLast]

/-- The pieces before the last one, joined, lack it and a separator. -/
theorem intercalate_dropLast_pieces (hsp : sp ≠ []) (h : (pieces sp s).dropLast ≠ []) :
    sp.intercalate (pieces sp s).dropLast ++ sp ++ lastPiece s sp = s := by
  rw [← intercalate_concat sp h, ← pieces_eq_concat hsp, intercalate_pieces hsp]

/-- Without a last piece that is too short, no text is missing but an empty one. -/
theorem joins_dropLast_iff (hsp : sp ≠ []) (hshort : (lastPiece s sp).length < sp.length) :
    (sp.intercalate (pieces sp s).dropLast = s ∨ sp.intercalate (pieces sp s).dropLast ++ sp = s) ↔
      lastPiece s sp = [] := by
  by_cases hinit : (pieces sp s).dropLast = []
  · -- the string is the last piece
    have hs : s = lastPiece s sp := by
      have hjoin := intercalate_pieces hsp s
      rw [pieces_eq_concat hsp, hinit, List.nil_append, List.intercalate_singleton] at hjoin
      exact hjoin.symm
    rw [hinit, List.intercalate_nil, List.nil_append]
    constructor
    · rintro (hnil | hsep)
      · rw [← hs, ← hnil]
      · rw [← hs, ← hsep] at hshort
        exact absurd hshort (lt_irrefl _)
    · intro hlast
      exact .inl (by rw [hs, hlast])
  · have hcut := intercalate_dropLast_pieces hsp hinit
    constructor
    · intro hlost
      have hpos := List.length_pos_iff.mpr hsp
      have hlen := congrArg List.length hcut
      simp only [List.length_append] at hlen
      -- The lengths leave no room for a last piece.
      apply List.length_eq_zero_iff.mp
      rcases hlost with hsame | hsep
      · rw [hsame] at hlen
        omega
      · have hlen' := congrArg List.length hsep
        rw [List.length_append] at hlen'
        omega
    · intro hlast
      rw [hlast, List.append_nil] at hcut
      exact .inr hcut

/-- No text is lost if and only if the last piece is empty, or as long as a separator. -/
theorem losesNoText_iff (hsp : sp ≠ []) :
    LosesNoText s sp ↔ lastPiece s sp = [] ∨ sp.length ≤ (lastPiece s sp).length := by
  have hreturns := returns_split hsp s
  by_cases hlong : sp.length ≤ (lastPiece s sp).length
  · -- every piece is kept
    rw [keptPieces, ← lastPiece, if_pos hlong] at hreturns
    refine iff_of_true ⟨_, hreturns, .inl (intercalate_pieces hsp s), ?_⟩ (.inr hlong)
    intro piece hpiece
    exact not_isInfix_of_mem_pieces hsp hpiece
  · rw [keptPieces, ← lastPiece, if_neg hlong] at hreturns
    rw [or_iff_left hlong, ← joins_dropLast_iff hsp (Nat.lt_of_not_le hlong)]
    constructor
    · rintro ⟨vt, hvt, hlost, -⟩
      rwa [hreturns.unique hvt]
    · intro hlost
      refine ⟨_, hreturns, hlost, fun piece hpiece => ?_⟩
      exact not_isInfix_of_mem_pieces hsp (List.mem_of_mem_dropLast hpiece)

/-- The entries, joined, behind what has already been joined. -/
theorem joinLoop_eq (sp s : Bytes) {entries : List Bytes} (hne : entries ≠ []) :
    joinLoop sp false s entries = some (s ++ sp.intercalate entries) := by
  induction entries generalizing s with
  | nil => exact absurd rfl hne
  | cons entry entries ih =>
    cases entries with
    | nil => simp [joinLoop]
    | cons next entries =>
      rw [joinLoop, ih _ (by simp), List.intercalate_cons_cons]
      simp only [List.append_assoc]

/-- Tokens are found again if and only if the last one is as long as a separator. -/
theorem roundTripsTokens_iff (hsp : sp ≠ []) (htokens : AreTokens tokens sp) :
    RoundTripsTokens tokens sp ↔ sp.length ≤ (tokens.getLastD []).length := by
  obtain ⟨hne, -, hfree⟩ := htokens
  have hjoin : StringVector.toString tokens sp false = some (sp.intercalate tokens) :=
    joinLoop_eq sp [] hne
  have hreturns := returns_split hsp (sp.intercalate tokens)
  rw [pieces_intercalate hsp hne hfree, keptPieces] at hreturns
  constructor
  · rintro ⟨s, hs, hsplit⟩
    obtain rfl := Option.some.inj (hjoin.symm.trans hs)
    by_contra hshort
    -- one token is missing
    rw [if_neg hshort] at hreturns
    have hlen := congrArg List.length (hreturns.unique hsplit)
    have := List.length_pos_iff.mpr hne
    rw [List.length_dropLast] at hlen
    omega
  · intro hlong
    rw [if_pos hlong] at hreturns
    exact ⟨_, hjoin, hreturns⟩

/-- Splitting at a separator loses no text, and tokens are found again, exactly where what stands
behind the last separator is not shorter than a separator, or empty. -/
theorem splitsRight_iff (hsp : sp ≠ []) :
    (∀ s, LosesNoText s sp ↔ lastPiece s sp = [] ∨ sp.length ≤ (lastPiece s sp).length) ∧
      ∀ tokens, AreTokens tokens sp →
        (RoundTripsTokens tokens sp ↔ sp.length ≤ (tokens.getLastD []).length) :=
  ⟨fun _ => losesNoText_iff hsp, fun _ htokens => roundTripsTokens_iff hsp htokens⟩

/-- Lines of two characters, with a line end of two characters. -/
theorem splitsRight_lines :
    LosesNoText (bytes "ab\r\n") (bytes "\r\n") ∧
      RoundTripsTokens [bytes "ab", bytes "cd"] (bytes "\r\n") := by
  have hsp : bytes "\r\n" ≠ [] := by decide
  have hcut : (bytes "ab\r\n").dropInfix? (bytes "\r\n") = some (bytes "ab", []) := by decide
  have hlast : lastPiece (bytes "ab\r\n") (bytes "\r\n") = [] := by
    rw [lastPiece, pieces_of_cut hsp hcut, pieces_nil hsp]
    rfl
  have hfree : [bytes "ab", bytes "cd"].all fun token =>
      (bytes "\r\n").all fun b => !token.contains b := by decide
  have htokens : AreTokens [bytes "ab", bytes "cd"] (bytes "\r\n") := by
    refine ⟨by decide, by simp [bytes], ?_⟩
    simpa only [List.all_eq_true, Bool.not_eq_true', List.contains_eq_mem,
      decide_eq_false_iff_not] using hfree
  exact ⟨((splitsRight_iff hsp).1 _).mpr (.inl hlast),
    ((splitsRight_iff hsp).2 _ htokens).mpr (by decide)⟩

/-- The last line is shorter than a line end. -/
theorem not_splitsRight : ¬ ∀ sp : Bytes, sp ≠ [] →
    (∀ s, LosesNoText s sp) ∧ ∀ tokens, AreTokens tokens sp → RoundTripsTokens tokens sp := by
  intro h
  obtain ⟨vt, hvt, hlost, -⟩ := (h (bytes "\r\n") (by decide)).1 (bytes "a")
  have hnone : (StringVector.split (bytes "a") (bytes "\r\n")).Returns [] := ⟨1, by decide⟩
  rw [hvt.unique hnone, List.intercalate_nil] at hlost
  exact absurd hlost (by decide)

end MosqCluster.hlp
