import MosqCluster.Helper.IniFile

/-!
# The loop over the lines of a buffer

When `ParseLines` of `helper/ini_parser.cpp` returns. A turn that finds a line end goes on behind
it; a turn that finds none leaves the offset where it is, and the loop goes on while the offset lies
in the text.

## Main definitions

* `Config.Terminates`: the loop returns after some number of turns;
* `offsetAt` and `Advances`: the offset before a turn, and that every turn moves it on.

## Main results

* `terminates_iff`: the loop returns, and moves on, for the texts that end in a line end;
* `Config.isSome_loadBuffer_iff`: the turns that `Config.loadBuffer` allows are enough.
-/

namespace MosqCluster

/-- The offset that a turn of the loop leaves. -/
def nextOffset (lines : Bytes) (offset : Nat) : Nat :=
  match findFrom lines LF offset with
  | some fpos => fpos + 1
  | none => offset

/-- The offset after a number of turns. -/
def offsetAt (lines : Bytes) : Nat → Nat
  | 0 => 0
  | turn + 1 => nextOffset lines (offsetAt lines turn)

/-- The string that a turn of the loop parses. -/
def turnLine (lines : Bytes) (offset : Nat) : Bytes :=
  match findFrom lines LF offset with
  | some fpos => substr lines offset fpos
  | none => lines.drop offset

/-- Every turn that begins within the text moves the offset on. -/
def Advances (lines : Bytes) : Prop :=
  ∀ turn, offsetAt lines turn < lines.length → offsetAt lines turn < offsetAt lines (turn + 1)

/-- `LoadBuffer` returns. -/
def Config.Terminates (c : Config) (lines : Bytes) : Prop :=
  ∃ turns loaded, Config.parseLoop lines turns 0 c = some loaded

/-- A turn of the loop. -/
theorem Config.parseLoop_succ (lines : Bytes) (turns offset : Nat) (c : Config) :
    Config.parseLoop lines (turns + 1) offset c =
      if nextOffset lines offset < lines.length then
        Config.parseLoop lines turns (nextOffset lines offset)
          (c.parseLine (turnLine lines offset))
      else some (c.parseLine (turnLine lines offset)) := by
  rw [Config.parseLoop, nextOffset, turnLine]
  cases findFrom lines LF offset with
  | none => rfl
  | some fpos => rfl

variable {lines : Bytes} {offset : Nat}

/-- From within a text without a line end at its end, no turn leaves the text. -/
theorem nextOffset_lt (hlast : lines.getLast? ≠ some LF) (h : offset < lines.length) :
    nextOffset lines offset < lines.length := by
  rw [nextOffset]
  split
  · next fpos hfind =>
    obtain ⟨m, rest, hdrop, -, rfl⟩ := exists_of_findFrom_eq_some hfind
    have hlen := congrArg List.length hdrop
    rw [List.length_drop, List.length_append, List.length_cons] at hlen
    -- something stands behind the line end, or the line end would be the last byte
    have hrest : rest ≠ [] := by
      rintro rfl
      apply hlast
      rw [← List.take_append_drop offset lines, hdrop]
      simp
    have := List.length_pos_iff.mpr hrest
    omega
  · exact h

/-- From within a text with a line end at its end, every turn moves on. -/
theorem lt_nextOffset (hlast : lines.getLast? = some LF) (h : offset < lines.length) :
    offset < nextOffset lines offset := by
  rw [nextOffset]
  split
  · next fpos hfind =>
    obtain ⟨m, rest, -, -, rfl⟩ := exists_of_findFrom_eq_some hfind
    omega
  · next hfind =>
    refine absurd ?_ (findFrom_eq_none_iff.mp hfind)
    have hdrop : (lines.drop offset).getLast? = some LF := by
      rw [List.getLast?_drop, if_neg (by omega), hlast]
    exact List.mem_of_getLast? hdrop

/-- Within a text without a line end at its end, the loop goes on for ever. -/
theorem Config.parseLoop_eq_none (hlast : lines.getLast? ≠ some LF) (turns : Nat)
    (h : offset < lines.length) (c : Config) : Config.parseLoop lines turns offset c = none := by
  induction turns generalizing offset c with
  | zero => rfl
  | succ turns ih =>
    have hnext := nextOffset_lt hlast h
    rw [Config.parseLoop_succ, if_pos hnext]
    exact ih hnext _

/-- A text that is not empty and does not end in a line end keeps the loop from returning. -/
theorem Config.Terminates.eq_nil_or_last {c : Config} (h : c.Terminates lines) :
    lines = [] ∨ lines.getLast? = some LF := by
  by_contra hcond
  obtain ⟨hne, hlast⟩ := not_or.mp hcond
  obtain ⟨turns, loaded, hloop⟩ := h
  have hnone := Config.parseLoop_eq_none hlast turns (List.length_pos_iff.mpr hne) c
  rw [hnone] at hloop
  cases hloop

/-- The number of turns that `loadBuffer` allows is enough where any number is. -/
theorem Config.isSome_loadBuffer_iff (c : Config) :
    (c.loadBuffer lines).isSome ↔ c.Terminates lines := by
  constructor
  · intro hsome
    obtain ⟨loaded, hloaded⟩ := Option.isSome_iff_exists.mp hsome
    exact ⟨_, loaded, hloaded⟩
  · intro hterminates
    rw [Config.loadBuffer_eq_some (terminated_of_last hterminates.eq_nil_or_last)]
    rfl

/-- Such a text has a turn that does not move the offset. -/
theorem not_advances (hne : lines ≠ []) (hlast : lines.getLast? ≠ some LF) :
    ¬ Advances lines := by
  intro hadvances
  -- the offset stays within the text and grows with every turn
  have hrun : ∀ turn, offsetAt lines turn < lines.length ∧ turn ≤ offsetAt lines turn := by
    intro turn
    induction turn with
    | zero => exact ⟨List.length_pos_iff.mpr hne, le_refl 0⟩
    | succ turn ih =>
      obtain ⟨hlt, hle⟩ := ih
      exact ⟨nextOffset_lt hlast hlt, by have := hadvances turn hlt; omega⟩
  have := hrun lines.length
  omega

/-- `LoadBuffer` returns, and its loop moves on in every turn, exactly for the empty text and for
the texts that end in a line end. -/
theorem terminates_iff (c : Config) (lines : Bytes) :
    (c.Terminates lines ↔ lines = [] ∨ lines.getLast? = some LF) ∧
      (Advances lines ↔ lines = [] ∨ lines.getLast? = some LF) := by
  constructor
  · refine ⟨Config.Terminates.eq_nil_or_last, fun hcond => ?_⟩
    exact ⟨_, _, Config.loadBuffer_eq_some (terminated_of_last hcond) c⟩
  · constructor
    · intro hadvances
      by_contra hcond
      rw [not_or] at hcond
      exact not_advances hcond.1 hcond.2 hadvances
    · rintro (rfl | hlast) turn hturn
      · cases hturn
      · exact lt_nextOffset hlast hturn

/-- A line without a line end. -/
theorem not_terminates_line : ¬ ∀ lines, Config.new.Terminates lines ∧ Advances lines := by
  intro h
  have hcond := (h (bytes "port=1883")).1.eq_nil_or_last
  exact absurd hcond (by decide)

end MosqCluster
