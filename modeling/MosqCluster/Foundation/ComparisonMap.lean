import Mathlib.Data.List.Induction
import Mathlib.Order.Defs.Unbundled

/-!
# Maps by a comparison

A finite map that knows its keys by a comparison only: two keys are the same where neither is less
than the other. The entries are kept in the order of the keys, as a list. A new value for a key
replaces the old one; the key that is there stays, and the new one is dropped.

## Main definitions

* `ComparisonMap`, `ComparisonMap.find?` and `ComparisonMap.insert`;
* `ComparisonMap.ofList`: a sequence of insertions.

## Main results

* `ComparisonMap.find?_insert_self` and `ComparisonMap.find?_insert_of_ne`: what is found after an
  insertion, where the comparison is a strict total order;
* `ComparisonMap.find?_ofList`: what is found after a sequence of them.
-/

/-- The entries of a map. -/
abbrev ComparisonMap (κ α : Type*) := List (κ × α)

namespace ComparisonMap

variable {κ α : Type*} (less : κ → κ → Bool)

/-- The value of a key. -/
def find? (k : κ) : ComparisonMap κ α → Option α
  | [] => none
  | (k', v) :: m => if less k' k then find? k m else if less k k' then none else some v

/-- The map with a value for a key. -/
def insert (k : κ) (v : α) : ComparisonMap κ α → ComparisonMap κ α
  | [] => [(k, v)]
  | (old, v') :: m =>
    if less old k then (old, v') :: insert k v m
    else if less k old then (k, v) :: (old, v') :: m
    -- The old key stays, with the new value.
    else (old, v) :: m

/-- The map after a sequence of insertions. -/
def ofList (entries : List (κ × α)) : ComparisonMap κ α :=
  entries.foldl (fun m p => insert less p.1 p.2 m) []

section Order

variable {less} [horder : IsStrictTotalOrder κ fun a b => less a b = true] {m : ComparisonMap κ α}
  {k k' : κ} {v : α}

theorem less_self (k : κ) : less k k = false := by
  simpa using irrefl_of (fun a b => less a b = true) k

variable (less) in
/-- Keys that are not the same are less one way. -/
theorem less_or_less (h : k' ≠ k) : less k k' = true ∨ less k' k = true := by
  by_contra hnot
  rw [not_or] at hnot
  exact h (Std.Trichotomous.trichotomous (r := fun a b => less a b = true) k' k hnot.2 hnot.1)

theorem not_less_of_less (h : less k k' = true) : ¬ less k' k = true :=
  asymm_of (fun a b => less a b = true) h

theorem less_trans {k'' : κ} (h : less k k' = true) (h' : less k' k'' = true) :
    less k k'' = true :=
  trans_of (fun a b => less a b = true) h h'

/-- What has been inserted is found. -/
theorem find?_insert_self (m : ComparisonMap κ α) (k : κ) (v : α) :
    find? less k (insert less k v m) = some v := by
  induction m with
  | nil => simp [insert, find?, less_self]
  | cons p m ih =>
    rw [insert]
    split_ifs with hbefore hbehind
    · rw [find?, if_pos hbefore, ih]
    · simp [find?, less_self]
    · rw [find?, if_neg hbefore, if_neg hbehind]

/-- A key that is not the first one, nor behind it, is not found. -/
theorem find?_cons_of_less {p : κ × α} (h : less k p.1 = true) : find? less k (p :: m) = none := by
  rw [find?, if_neg (not_less_of_less h), if_pos h]

omit horder in
theorem find?_cons_of_greater {p : κ × α} (h : less p.1 k = true) :
    find? less k (p :: m) = find? less k m := by
  rw [find?, if_pos h]

/-- An insertion changes nothing for the other keys. -/
theorem find?_insert_of_ne (h : k' ≠ k) (m : ComparisonMap κ α) (v : α) :
    find? less k' (insert less k v m) = find? less k' m := by
  induction m with
  | nil =>
    rcases less_or_less less h with hless | hless
    · exact find?_cons_of_greater hless
    · exact find?_cons_of_less hless
  | cons p m ih =>
    obtain ⟨k₁, v₁⟩ := p
    rw [insert]
    split_ifs with hbefore hbehind
    · rw [find?, find?, ih]
    · -- the new entry comes first
      rcases less_or_less less h with hless | hless
      · exact find?_cons_of_greater hless
      · exact (find?_cons_of_less hless).trans
          (find?_cons_of_less (p := (k₁, v₁)) (less_trans hless hbehind)).symm
    · -- the key is the one that is there
      obtain rfl : k₁ = k := by
        by_contra hne
        exact (less_or_less less hne).elim hbehind hbefore
      rw [find?, find?]
      rcases less_or_less less h with hless | hless
      · rw [if_pos hless, if_pos hless]
      · rw [if_pos hless, if_pos hless]

/-- What is found is what was inserted last under the key. -/
theorem find?_ofList [DecidableEq κ] (entries : List (κ × α)) (k : κ) :
    find? less k (ofList less entries) = (entries.reverse.find? (·.1 = k)).map (·.2) := by
  induction entries using List.reverseRecOn with
  | nil => rfl
  | append_singleton entries p ih =>
    rw [ofList, List.foldl_append, List.foldl_cons, List.foldl_nil, List.reverse_append,
      List.reverse_singleton, List.singleton_append]
    by_cases hkey : p.1 = k
    · rw [List.find?_cons_of_pos (by simpa using hkey), hkey, find?_insert_self, Option.map_some]
    · rw [List.find?_cons_of_neg (by simpa using hkey), find?_insert_of_ne (Ne.symm hkey)]
      exact ih

end Order

end ComparisonMap
