import Mathlib.Data.Finset.Card
import Mathlib.Data.Finset.Range

/-!
# Tables of slots

A table has slots numbered from zero, each of them free or with an entry. `occupied q n` are the
slots below `n` that have an entry. Where fewer than `m` slots are occupied, a free one lies below
`m`, wherever the entries are.
-/

namespace SlotTable

variable {α : Type*} {q : ℕ → Option α} {n m i : ℕ}

/-- The slots below `n` that have an entry. -/
def occupied (q : ℕ → Option α) (n : ℕ) : Finset ℕ := {i ∈ Finset.range n | (q i).isSome}

@[simp]
theorem mem_occupied : i ∈ occupied q n ↔ i < n ∧ (q i).isSome := by simp [occupied]

@[simp]
theorem occupied_none : occupied (fun _ => none : ℕ → Option α) n = ∅ := by simp [occupied]

/-- There are at most `n` occupied slots below `n`. -/
theorem card_occupied_le : (occupied q n).card ≤ n :=
  (Finset.card_filter_le _ _).trans_eq (Finset.card_range n)

/-- Filling a slot. -/
theorem occupied_update_some (hi : i < n) (a : α) :
    occupied (Function.update q i (some a)) n = insert i (occupied q n) := by
  ext j
  rw [Finset.mem_insert, mem_occupied, mem_occupied]
  by_cases h : j = i
  · simp [h, hi]
  · simp [h]

/-- Clearing a slot. -/
theorem occupied_update_none :
    occupied (Function.update q i none) n = (occupied q n).erase i := by
  ext j
  rw [Finset.mem_erase, mem_occupied, mem_occupied]
  by_cases h : j = i
  · simp [h]
  · simp [h]

/-- Filling a free slot adds one to the count. -/
theorem card_occupied_fill (hi : i < n) (hfree : q i = none) (a : α) :
    (occupied (Function.update q i (some a)) n).card = (occupied q n).card + 1 := by
  rw [occupied_update_some hi, Finset.card_insert_of_notMem]
  rw [mem_occupied, hfree]
  rintro ⟨-, h⟩
  cases h

/-- Clearing an occupied slot takes one from the count. -/
theorem card_occupied_clear (hi : i < n) (hfull : (q i).isSome) :
    (occupied (Function.update q i none) n).card + 1 = (occupied q n).card := by
  rw [occupied_update_none]
  exact Finset.card_erase_add_one (mem_occupied.mpr ⟨hi, hfull⟩)

/-- Where fewer than `m` slots are occupied, one of the first `m` is free: if none were, they would
all be among the occupied ones. -/
theorem exists_free (hm : m ≤ n) (h : (occupied q n).card < m) : ∃ i < m, q i = none := by
  by_contra hfull
  push Not at hfull
  have hsub : Finset.range m ⊆ occupied q n := by
    intro i hi
    have him := Finset.mem_range.mp hi
    exact mem_occupied.mpr ⟨him.trans_le hm, Option.isSome_iff_ne_none.mpr (hfull i him)⟩
  have hcard := Finset.card_le_card hsub
  rw [Finset.card_range] at hcard
  omega

end SlotTable
