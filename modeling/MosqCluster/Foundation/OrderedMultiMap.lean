import Mathlib.Data.List.Sort

/-!
# Multimaps as ordered lists

A finite map with several values for a key, kept in the order of the keys as a list. A new value
comes behind the others of its key.

## Main definitions

* `OrderedMultiMap`, `OrderedMultiMap.insert` and `OrderedMultiMap.ofList`;
* `OrderedMultiMap.Sorted`: no key comes behind a larger one.

## Main results

* `OrderedMultiMap.ofList_perm`: the entries are those that were inserted;
* `OrderedMultiMap.filter_ofList`: those of one key stand in the order of the insertions.
-/

/-- The entries of a multimap. -/
abbrev OrderedMultiMap (κ α : Type*) := List (κ × α)

namespace OrderedMultiMap

variable {κ α : Type*} [LT κ]

/-- No key comes behind a larger one. -/
def Sorted (m : OrderedMultiMap κ α) : Prop := m.Pairwise fun p q => ¬ q.1 < p.1

variable [DecidableLT κ]

/-- The multimap with a new entry, in front of the larger keys. -/
def insert (m : OrderedMultiMap κ α) (k : κ) (v : α) : OrderedMultiMap κ α :=
  m.orderedInsert (fun p q => p.1 < q.1) (k, v)

/-- The multimap of several insertions. -/
def ofList (entries : List (κ × α)) : OrderedMultiMap κ α :=
  entries.foldl (fun m p => m.insert p.1 p.2) []

variable {m : OrderedMultiMap κ α} {k : κ} {v : α}

theorem insert_perm (m : OrderedMultiMap κ α) (k : κ) (v : α) : (m.insert k v).Perm ((k, v) :: m) :=
  List.perm_orderedInsert _ _ m

theorem insert_cons_of_lt {p : κ × α} (h : k < p.1) :
    OrderedMultiMap.insert (p :: m) k v = (k, v) :: p :: m :=
  List.orderedInsert_cons_of_le _ m h

theorem insert_cons_of_not_lt {p : κ × α} (h : ¬ k < p.1) :
    OrderedMultiMap.insert (p :: m) k v = p :: m.insert k v :=
  List.orderedInsert_of_not_le _ m h

/-- The entries are those that were inserted. -/
theorem ofList_perm (entries : List (κ × α)) : (ofList entries).Perm entries := by
  suffices h : ∀ m : OrderedMultiMap κ α,
      (entries.foldl (fun m p => m.insert p.1 p.2) m).Perm (entries ++ m) by
    have hnil := h []
    rwa [List.append_nil] at hnil
  induction entries with
  | nil => exact List.Perm.refl
  | cons p entries ih =>
    intro m
    refine (ih (m.insert p.1 p.2)).trans ?_
    exact ((insert_perm m p.1 p.2).append_left entries).trans List.perm_middle

variable [Std.Asymm (α := κ) (· < ·)]

/-- A new entry comes behind the others of its key. -/
theorem Sorted.filter_insert [DecidableEq κ] (h : Sorted m) (k : κ) (v : α) (name : κ) :
    (m.insert k v).filter (·.1 = name) =
      m.filter (·.1 = name) ++ [(k, v)].filter (·.1 = name) := by
  induction m with
  | nil => rfl
  | cons p m ih =>
    obtain ⟨hp, hm⟩ := List.pairwise_cons.mp h
    by_cases hlt : k < p.1
    · rw [insert_cons_of_lt hlt]
      by_cases hname : k = name
      · -- Here and further on the keys are larger.
        subst hname
        have hnone : (p :: m).filter (·.1 = k) = [] := by
          rw [List.filter_eq_nil_iff]
          intro q hq heq
          obtain rfl : q.1 = k := by simpa using heq
          obtain rfl | hq := List.mem_cons.mp hq
          · exact asymm hlt hlt
          · exact hp q hq hlt
        rw [hnone, List.filter_cons, hnone, List.filter_cons]
        simp
      · have hnone : [(k, v)].filter (·.1 = name) = [] := by simp [hname]
        rw [hnone, List.append_nil, List.filter_cons_of_neg (by simp [hname])]
    · rw [insert_cons_of_not_lt hlt, List.filter_cons, List.filter_cons, ih hm]
      split <;> rfl

variable [IsTrans κ (· < ·)]

/-- An insertion keeps the order. -/
theorem Sorted.insert (h : Sorted m) (k : κ) (v : α) : Sorted (m.insert k v) := by
  induction m with
  | nil => exact List.pairwise_singleton _ _
  | cons p m ih =>
    obtain ⟨hp, hm⟩ := List.pairwise_cons.mp h
    by_cases hlt : k < p.1
    · rw [insert_cons_of_lt hlt]
      refine List.pairwise_cons.mpr ⟨fun q hq hqk => ?_, h⟩
      obtain rfl | hq := List.mem_cons.mp hq
      · exact asymm hlt hqk
      · exact hp q hq (IsTrans.trans _ _ _ hqk hlt)
    · rw [insert_cons_of_not_lt hlt]
      refine List.pairwise_cons.mpr ⟨fun q hq => ?_, ih hm⟩
      obtain rfl | hq := List.mem_cons.mp ((insert_perm m k v).mem_iff.mp hq)
      · exact hlt
      · exact hp q hq

/-- Those of one key stand in the order of the insertions. -/
theorem filter_ofList [DecidableEq κ] (entries : List (κ × α)) (name : κ) :
    (ofList entries).filter (·.1 = name) = entries.filter (·.1 = name) := by
  suffices h : ∀ m : OrderedMultiMap κ α, Sorted m →
      (entries.foldl (fun m p => m.insert p.1 p.2) m).filter (·.1 = name) =
        m.filter (·.1 = name) ++ entries.filter (·.1 = name) by
    exact h [] List.Pairwise.nil
  induction entries with
  | nil => simp
  | cons p entries ih =>
    intro m hm
    rw [List.foldl_cons, ih _ (hm.insert p.1 p.2), hm.filter_insert, List.append_assoc,
      ← List.filter_append, List.singleton_append]

end OrderedMultiMap
