import Mathlib.Data.List.Infix
import Mathlib.Data.Set.Defs

/-!
# Prefix codes

A function to words is a prefix code on a set where no word is empty, and none is the beginning of
the word of another element. A text of such words is taken apart from the left in one way.

## Main definitions

* `PrefixCode`: a prefix code on a set.

## Main results

* `PrefixCode.eq_of_append_eq`: texts that are the same have the same first words;
* `PrefixCode.eq_of_flatMap_eq`: and they are texts of the same sequence.
-/

/-- A prefix code on a set. -/
structure PrefixCode {α β : Type*} (S : Set α) (encode : α → List β) : Prop where
  ne_nil : ∀ a ∈ S, encode a ≠ []
  eq_of_isPrefix : ∀ a ∈ S, ∀ b ∈ S, encode a <+: encode b → a = b

namespace PrefixCode

variable {α β : Type*} {S : Set α} {encode : α → List β}

/-- Texts that are the same have the same first words. -/
theorem eq_of_append_eq (h : PrefixCode S encode) {a b : α} (ha : a ∈ S) (hb : b ∈ S)
    {rest rest' : List β} (heq : encode a ++ rest = encode b ++ rest') : a = b := by
  rcases List.append_eq_append_iff.mp heq with ⟨c, hc, -⟩ | ⟨c, hc, -⟩
  · exact h.eq_of_isPrefix a ha b hb ⟨c, hc.symm⟩
  · exact (h.eq_of_isPrefix b hb a ha ⟨c, hc.symm⟩).symm

/-- Two sequences with the same text are the same. -/
theorem eq_of_flatMap_eq (h : PrefixCode S encode) {as bs : List α} (has : ∀ a ∈ as, a ∈ S)
    (hbs : ∀ b ∈ bs, b ∈ S) (heq : as.flatMap encode = bs.flatMap encode) : as = bs := by
  induction as generalizing bs with
  | nil =>
    cases bs with
    | nil => rfl
    | cons b bs =>
      rw [List.flatMap_nil, List.flatMap_cons] at heq
      exact absurd (List.append_eq_nil_iff.mp heq.symm).1 (h.ne_nil b (hbs b List.mem_cons_self))
  | cons a as ih =>
    have ha := has a List.mem_cons_self
    cases bs with
    | nil =>
      rw [List.flatMap_nil, List.flatMap_cons] at heq
      exact absurd (List.append_eq_nil_iff.mp heq).1 (h.ne_nil a ha)
    | cons b bs =>
      have hb := hbs b List.mem_cons_self
      rw [List.flatMap_cons, List.flatMap_cons] at heq
      obtain rfl := h.eq_of_append_eq ha hb heq
      rw [ih (fun x hx => has x (List.mem_cons_of_mem _ hx))
        (fun x hx => hbs x (List.mem_cons_of_mem _ hx)) (List.append_cancel_left heq)]

end PrefixCode
