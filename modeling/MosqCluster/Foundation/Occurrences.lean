import Mathlib.Data.List.Basic
import Mathlib.Data.List.Infix

/-!
# The occurrences of a pattern in a list

A list is cut at the first occurrence of a pattern, and what is behind it is cut again, so that the
occurrences that count do not overlap. `List.dropInfix?` makes one such cut.

## Main definitions

* `pieces`: what stands between the occurrences;
* `replaceFirst`: the list with another text for the first occurrence.

## Main results

* `intercalate_pieces`: the pieces, joined with the pattern, are the list;
* `pieces_intercalate`: pieces that share no element with the pattern are found again.
-/

namespace Occurrences

variable {α : Type*} [DecidableEq α] {p l before after : List α}

/-! ## The first occurrence -/

/-- A cut is made at the first occurrence. -/
theorem cut_eq_some_iff : l.dropInfix? p = some (before, after) ↔
    l = before ++ p ++ after ∧
      ∀ before' after', l = before' ++ p ++ after' → before.length ≤ before'.length := by
  rw [List.dropInfix?_eq_some_iff]
  constructor
  · rintro ⟨⟨p', hl, hp'⟩, hfirst⟩
    obtain rfl := eq_of_beq hp'
    exact ⟨hl, fun before' after' h => hfirst before' p' after' h (beq_self_eq_true p')⟩
  · rintro ⟨hl, hfirst⟩
    refine ⟨⟨p, hl, beq_self_eq_true p⟩, fun before' p' after' h hp' => ?_⟩
    obtain rfl := eq_of_beq hp'
    exact hfirst before' after' h

/-- What a cut leaves, and the pattern, are the list. -/
theorem eq_of_cut (h : l.dropInfix? p = some (before, after)) : l = before ++ p ++ after :=
  (cut_eq_some_iff.mp h).1

/-- A cut is made where the list begins with the pattern. -/
theorem cut_append_left (p after : List α) : (p ++ after).dropInfix? p = some ([], after) :=
  cut_eq_some_iff.mpr ⟨rfl, fun _ _ _ => Nat.zero_le _⟩

/-- A list that does not begin with the pattern is cut behind its head. -/
theorem cut_cons {x : α} (h : ¬ p <+: x :: l) :
    (x :: l).dropInfix? p = (l.dropInfix? p).map fun cut => (x :: cut.1, cut.2) := by
  apply Option.ext
  rintro ⟨before, after⟩
  rw [Option.map_eq_some_iff]
  constructor
  · intro hcut
    obtain ⟨hl, hfirst⟩ := cut_eq_some_iff.mp hcut
    cases before with
    | nil => exact absurd ⟨after, hl.symm⟩ h
    | cons y before =>
      obtain ⟨rfl, htail⟩ := List.cons.inj hl
      refine ⟨(before, after), cut_eq_some_iff.mpr ⟨htail, fun before' after' hl' => ?_⟩, rfl⟩
      have := hfirst (x :: before') after' (congrArg (x :: ·) hl')
      simpa using this
  · rintro ⟨⟨before', after'⟩, hcut, heq⟩
    obtain ⟨rfl, rfl⟩ := Prod.mk.inj heq
    obtain ⟨hl, hfirst⟩ := cut_eq_some_iff.mp hcut
    refine cut_eq_some_iff.mpr ⟨congrArg (x :: ·) hl, fun before'' after'' hl'' => ?_⟩
    cases before'' with
    | nil => exact absurd ⟨after'', hl''.symm⟩ h
    | cons y before'' => simpa using hfirst before'' after'' (List.cons.inj hl'').2

/-- No cut is made where the pattern does not occur. -/
theorem cut_eq_none_iff : l.dropInfix? p = none ↔ ¬ p <:+: l := by
  constructor
  · rintro hnone ⟨before, after, hl⟩
    induction before generalizing l with
    | nil =>
      obtain rfl := hl
      rw [List.nil_append, cut_append_left] at hnone
      cases hnone
    | cons x before ih =>
      obtain rfl := hl
      by_cases hp : p <+: x :: (before ++ p ++ after)
      · obtain ⟨rest, hrest⟩ := hp
        rw [List.cons_append, List.cons_append, ← hrest, cut_append_left] at hnone
        cases hnone
      · rw [List.cons_append, List.cons_append, cut_cons hp, Option.map_eq_none_iff] at hnone
        exact ih hnone rfl
  · intro h
    rw [Option.eq_none_iff_forall_not_mem]
    rintro ⟨before, after⟩ hcut
    exact h ⟨before, after, (eq_of_cut hcut).symm⟩

/-- A pattern that occurs is found. -/
theorem exists_cut (h : p <:+: l) : ∃ before after, l.dropInfix? p = some (before, after) := by
  cases hcut : l.dropInfix? p with
  | none => exact absurd h (cut_eq_none_iff.mp hcut)
  | some cut => exact ⟨cut.1, cut.2, rfl⟩

/-- What is behind a cut is shorter than the list. -/
theorem length_lt_of_cut (hp : p ≠ []) (h : l.dropInfix? p = some (before, after)) :
    after.length < l.length := by
  have hlen := congrArg List.length (eq_of_cut h)
  have := List.length_pos_iff.mpr hp
  rw [List.length_append, List.length_append] at hlen
  omega

/-- The pattern does not occur before the cut. -/
theorem not_isInfix_of_cut (hp : p ≠ []) (h : l.dropInfix? p = some (before, after)) :
    ¬ p <:+: before := by
  rintro ⟨s, t, rfl⟩
  have hle := (cut_eq_some_iff.mp h).2 s (t ++ p ++ after) (by simp [eq_of_cut h])
  have := List.length_pos_iff.mpr hp
  simp only [List.length_append] at hle
  omega

/-- Behind a text that shares no element with the pattern, the pattern is found. -/
theorem cut_of_disjoint (hp : p ≠ []) (hfree : ∀ x ∈ p, x ∉ before) (after : List α) :
    (before ++ p ++ after).dropInfix? p = some (before, after) := by
  refine cut_eq_some_iff.mpr ⟨rfl, fun before' after' h => ?_⟩
  by_contra hlt
  obtain ⟨x, p', rfl⟩ := List.exists_cons_of_ne_nil hp
  -- An earlier occurrence would begin within the text.
  have hget := congrArg (fun l => l[before'.length]?) h
  simp only [List.append_assoc] at hget
  rw [List.getElem?_append_left (by omega), List.getElem?_append_right le_rfl, Nat.sub_self] at hget
  exact hfree x List.mem_cons_self (List.mem_of_getElem? hget)

/-- A text that shares no element with the pattern is not cut. -/
theorem cut_eq_none_of_disjoint (hp : p ≠ []) (hfree : ∀ x ∈ p, x ∉ l) :
    l.dropInfix? p = none := by
  obtain ⟨x, p', rfl⟩ := List.exists_cons_of_ne_nil hp
  refine cut_eq_none_iff.mpr fun h => ?_
  exact hfree x List.mem_cons_self (h.subset List.mem_cons_self)

/-- The list with another text for the first occurrence. -/
def replaceFirst (p value l : List α) : List α :=
  match l.dropInfix? p with
  | none => l
  | some (before, after) => before ++ value ++ after

theorem replaceFirst_of_none (value : List α) (h : l.dropInfix? p = none) :
    replaceFirst p value l = l := by rw [replaceFirst, h]

/-! ## All occurrences -/

/-- What stands between the occurrences of a pattern. An empty pattern does not cut. -/
def pieces (p l : List α) : List (List α) :=
  match l.dropInfix? p with
  | none => [l]
  | some (before, after) =>
    if _ : after.length < l.length then before :: pieces p after else [l]
termination_by l.length

theorem pieces_of_none (h : l.dropInfix? p = none) : pieces p l = [l] := by rw [pieces, h]

theorem pieces_of_cut (hp : p ≠ []) (h : l.dropInfix? p = some (before, after)) :
    pieces p l = before :: pieces p after := by
  rw [pieces, h]
  exact dif_pos (length_lt_of_cut hp h)

/-- A head that begins no occurrence belongs to the first piece. -/
theorem pieces_cons (hp : p ≠ []) {x : α} (h : ¬ p <+: x :: l) :
    pieces p (x :: l) = (pieces p l).modifyHead (x :: ·) := by
  cases hcut : l.dropInfix? p with
  | none =>
    have hcons : (x :: l).dropInfix? p = none := by rw [cut_cons h, hcut, Option.map_none]
    rw [pieces_of_none hcut, pieces_of_none hcons, List.modifyHead_cons]
  | some parts =>
    have hcons : (x :: l).dropInfix? p = some (x :: parts.1, parts.2) := by
      rw [cut_cons h, hcut, Option.map_some]
    rw [pieces_of_cut hp hcut, pieces_of_cut hp hcons, List.modifyHead_cons]

/-- A list is cut again and again. -/
theorem cut_induction (hp : p ≠ []) {motive : List α → Prop}
    (last : ∀ l, l.dropInfix? p = none → motive l)
    (cut : ∀ l before after, l.dropInfix? p = some (before, after) → motive after → motive l)
    (l : List α) : motive l := by
  induction hlen : l.length using Nat.strongRecOn generalizing l with
  | _ n ih =>
    cases h : l.dropInfix? p with
    | none => exact last l h
    | some parts =>
      exact cut l parts.1 parts.2 h (ih _ (hlen ▸ length_lt_of_cut hp h) parts.2 rfl)

theorem pieces_ne_nil (hp : p ≠ []) (l : List α) : pieces p l ≠ [] := by
  cases h : l.dropInfix? p with
  | none => simp [pieces_of_none h]
  | some parts => simp [pieces_of_cut hp h]

/-- The pieces, joined with the pattern, are the list. -/
theorem intercalate_pieces (hp : p ≠ []) (l : List α) : p.intercalate (pieces p l) = l := by
  induction l using cut_induction hp with
  | last l h => rw [pieces_of_none h, List.intercalate_singleton]
  | cut l before after h ih =>
    rw [pieces_of_cut hp h, List.intercalate_cons_of_ne_nil (pieces_ne_nil hp after), ih]
    exact (eq_of_cut h).symm

omit [DecidableEq α] in
/-- The last one of several texts that are joined. -/
theorem intercalate_concat (p : List α) {init : List (List α)} (hinit : init ≠ [])
    (last : List α) : p.intercalate (init ++ [last]) = p.intercalate init ++ p ++ last := by
  induction init with
  | nil => exact absurd rfl hinit
  | cons first init ih =>
    by_cases hinit' : init = []
    · subst hinit'
      rw [List.singleton_append, List.intercalate_cons_cons, List.intercalate_singleton,
        List.intercalate_singleton]
    · rw [List.cons_append, List.intercalate_cons_of_ne_nil (by simp),
        List.intercalate_cons_of_ne_nil hinit', ih hinit']
      simp only [List.append_assoc]

/-- The pattern does not occur in a piece. -/
theorem not_isInfix_of_mem_pieces (hp : p ≠ []) {piece : List α} (h : piece ∈ pieces p l) :
    ¬ p <:+: piece := by
  induction l using cut_induction hp with
  | last l hnone =>
    rw [pieces_of_none hnone, List.mem_singleton] at h
    exact h ▸ cut_eq_none_iff.mp hnone
  | cut l before after hcut ih =>
    rw [pieces_of_cut hp hcut] at h
    obtain rfl | h := List.mem_cons.mp h
    · exact not_isInfix_of_cut hp hcut
    · exact ih h

/-- Pieces that share no element with the pattern are found again. -/
theorem pieces_intercalate (hp : p ≠ []) {tokens : List (List α)} (hne : tokens ≠ [])
    (hfree : ∀ token ∈ tokens, ∀ x ∈ p, x ∉ token) : pieces p (p.intercalate tokens) = tokens := by
  induction tokens with
  | nil => exact absurd rfl hne
  | cons token tokens ih =>
    have htoken := hfree token List.mem_cons_self
    by_cases hlast : tokens = []
    · subst hlast
      rw [List.intercalate_singleton, pieces_of_none (cut_eq_none_of_disjoint hp htoken)]
    · rw [List.intercalate_cons_of_ne_nil hlast, pieces_of_cut hp (cut_of_disjoint hp htoken _),
        ih hlast fun t ht => hfree t (List.mem_cons_of_mem _ ht)]

/-! ## Patterns that do not overlap themselves -/

/-- No part of the pattern but the whole is both its beginning and its end. -/
def Unbordered (p : List α) : Prop := ∀ q, q ≠ [] → q <+: p → q <:+ p → q = p

omit [DecidableEq α] in
/-- An occurrence of such a pattern does not begin within another one: behind the head of one, it
stands behind the whole of it. -/
theorem Unbordered.exists_append (h : Unbordered p) {x : α} {t : List α} (hp : p = x :: t)
    {rest : List α} (heq : t ++ rest = before ++ p ++ after) :
    ∃ c, before = t ++ c ∧ rest = c ++ p ++ after := by
  have hle : t.length ≤ before.length := by
    by_contra hlt
    -- The end of the first one would be the beginning of the second one.
    have hdrop := congrArg (List.drop before.length) heq
    rw [List.append_assoc, List.drop_left, List.drop_append_of_le_length (by omega)] at hdrop
    have hlen : (t.drop before.length).length = t.length - before.length := List.length_drop
    have hplen : p.length = t.length + 1 := by rw [hp, List.length_cons]
    have hpre : t.drop before.length <+: p := by
      apply List.prefix_of_prefix_length_le (List.prefix_append _ rest)
      · rw [hdrop]
        exact List.prefix_append p after
      · omega
    have hsuf : t.drop before.length <:+ p := by
      rw [hp]
      exact (List.drop_suffix _ t).trans (List.suffix_cons x t)
    have hq := h _ (by rw [← List.length_pos_iff]; omega) hpre hsuf
    rw [hq] at hlen
    omega
  obtain ⟨c, rfl⟩ : t <+: before := by
    apply List.prefix_of_prefix_length_le (List.prefix_append t rest)
    · rw [heq, List.append_assoc]
      exact List.prefix_append before (p ++ after)
    · exact hle
  refine ⟨c, rfl, ?_⟩
  simpa only [List.append_assoc, List.append_cancel_left_eq] using heq

/-- Behind the head of one occurrence, the next one is the first behind the whole of it. -/
theorem Unbordered.cut_tail_append (h : Unbordered p) {x : α} {t : List α} (hp : p = x :: t)
    (rest : List α) :
    (t ++ rest).dropInfix? p = (rest.dropInfix? p).map fun cut => (t ++ cut.1, cut.2) := by
  apply Option.ext
  rintro ⟨b, a⟩
  rw [Option.map_eq_some_iff]
  constructor
  · intro hcut
    obtain ⟨hl, hfirst⟩ := cut_eq_some_iff.mp hcut
    obtain ⟨c, rfl, hrest⟩ := h.exists_append hp hl
    refine ⟨(c, a), cut_eq_some_iff.mpr ⟨hrest, fun c' a' hc' => ?_⟩, rfl⟩
    have := hfirst (t ++ c') a' (by rw [hc']; simp only [List.append_assoc])
    simp only [List.length_append] at this
    omega
  · rintro ⟨⟨c, a'⟩, hcut, heq⟩
    obtain ⟨rfl, rfl⟩ := Prod.mk.inj heq
    obtain ⟨hl, hfirst⟩ := cut_eq_some_iff.mp hcut
    refine cut_eq_some_iff.mpr ⟨by rw [hl]; simp only [List.append_assoc], fun b' a' hb' => ?_⟩
    obtain ⟨c', rfl, hrest⟩ := h.exists_append hp hb'
    have := hfirst c' a' hrest
    simp only [List.length_append]
    omega

end Occurrences
