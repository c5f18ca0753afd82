import Mathlib.Data.List.Basic

/-!
# Maps as ordered lists

A finite map whose entries are kept in the order of their keys, as a list. The entries may contain
maps of the same kind, so that the order is not part of the type: the laws of `find?` and `insert`
hold for lists in any order.

## Main definitions

* `OrderedMap`, `OrderedMap.find?` and `OrderedMap.insert`.

## Main results

* `OrderedMap.find?_insert_self` and `OrderedMap.find?_insert_of_ne`: what is found after an
  insertion;
* `OrderedMap.mem_of_mem_insert`, `OrderedMap.mem_insert_or_find?` and `OrderedMap.perm_insert`:
  which entries there are;
* `OrderedMap.pairwise_insert` and `OrderedMap.foldl_insert_of_pairwise`: where the entries are in
  order, they stay so, and inserting them one by one makes the map again.
-/

/-- The entries of a map. -/
abbrev OrderedMap (κ α : Type*) := List (κ × α)

namespace OrderedMap

variable {κ α : Type*} [LT κ] [DecidableLT κ] [DecidableEq κ]

omit [LT κ] [DecidableLT κ] in
/-- The value of a key. -/
def find? (m : OrderedMap κ α) (k : κ) : Option α :=
  match m with
  | [] => none
  | (k', v) :: m => if k' = k then some v else find? m k

/-- The map with a new value for a key, which keeps or finds its place. -/
def insert (m : OrderedMap κ α) (k : κ) (v : α) : OrderedMap κ α :=
  match m with
  | [] => [(k, v)]
  | (k', v') :: m =>
    if k < k' then (k, v) :: (k', v') :: m
    else if k' = k then (k, v) :: m
    else (k', v') :: insert m k v

variable {m : OrderedMap κ α} {k : κ} {v : α}

theorem find?_insert_self (m : OrderedMap κ α) (k : κ) (v : α) :
    (m.insert k v).find? k = some v := by
  induction m with
  | nil => simp [insert, find?]
  | cons p m ih =>
    obtain ⟨k', v'⟩ := p
    unfold insert
    split
    · simp [find?]
    · split
      · simp [find?]
      · next hne => simpa [find?, hne] using ih

/-- An insertion changes nothing for the other keys. -/
theorem find?_insert_of_ne {k' : κ} (h : k' ≠ k) : (m.insert k v).find? k' = m.find? k' := by
  induction m with
  | nil => simp [insert, find?, h.symm]
  | cons p m ih =>
    obtain ⟨k₁, v₁⟩ := p
    unfold insert
    split
    · simp [find?, h.symm]
    · split
      · next heq => simp [find?, heq, h.symm]
      · simp [find?, ih]

/-- After an insertion one more key has a value. -/
theorem isSome_find?_insert {k' : κ} :
    ((m.insert k v).find? k').isSome ↔ (m.find? k').isSome ∨ k = k' := by
  by_cases h : k' = k
  · subst h
    rw [find?_insert_self]
    exact iff_of_true rfl (.inr rfl)
  · rw [find?_insert_of_ne h, or_iff_left (Ne.symm h)]

omit [LT κ] [DecidableLT κ] in
/-- What is found is an entry. -/
theorem mem_of_find? (h : m.find? k = some v) : (k, v) ∈ m := by
  induction m with
  | nil => cases h
  | cons p m ih =>
    obtain ⟨k', v'⟩ := p
    unfold find? at h
    split at h
    · next heq =>
      obtain rfl := Option.some.inj h
      rw [heq]
      exact List.mem_cons_self
    · exact List.mem_cons_of_mem _ (ih h)

omit [LT κ] [DecidableLT κ] in
/-- A value that is computed from each entry is found under the same key. -/
theorem find?_map {β : Type*} (f : κ → α → β) (m : OrderedMap κ α) (k : κ) :
    find? (m.map fun p => (p.1, f p.1 p.2)) k = (m.find? k).map (f k) := by
  induction m with
  | nil => rfl
  | cons p m ih =>
    obtain ⟨k', v⟩ := p
    rw [List.map_cons, find?, find?]
    split_ifs with heq
    · rw [heq, Option.map_some]
    · exact ih

/-- An entry after an insertion is the new one or an old one. -/
theorem mem_of_mem_insert {p : κ × α} (h : p ∈ m.insert k v) : p = (k, v) ∨ p ∈ m := by
  induction m with
  | nil => exact .inl (List.mem_singleton.mp h)
  | cons q m ih =>
    obtain ⟨k', v'⟩ := q
    unfold insert at h
    split at h
    · exact List.mem_cons.mp h
    · split at h
      · rcases List.mem_cons.mp h with h | h
        · exact .inl h
        · exact .inr (List.mem_cons_of_mem _ h)
      · rcases List.mem_cons.mp h with h | h
        · exact .inr (h ▸ List.mem_cons_self)
        · exact (ih h).imp_right (List.mem_cons_of_mem _)

/-- The new entry is there. -/
theorem mem_insert_self (m : OrderedMap κ α) (k : κ) (v : α) : (k, v) ∈ m.insert k v :=
  mem_of_find? (find?_insert_self m k v)

/-- An entry stays, unless it is the one that is found under the key. -/
theorem mem_insert_or_find? {p : κ × α} (h : p ∈ m) (k : κ) (v : α) :
    p ∈ m.insert k v ∨ p.1 = k ∧ m.find? k = some p.2 := by
  induction m with
  | nil => cases h
  | cons q m ih =>
    obtain ⟨k', v'⟩ := q
    unfold insert find?
    split
    · exact .inl (List.mem_cons_of_mem _ h)
    · split
      · next heq =>
        rcases List.mem_cons.mp h with rfl | h
        · exact .inr ⟨heq, rfl⟩
        · exact .inl (List.mem_cons_of_mem _ h)
      · rcases List.mem_cons.mp h with rfl | h
        · exact .inl List.mem_cons_self
        · exact (ih h).imp_left (List.mem_cons_of_mem _)

/-- The entry of a new key is added to the others. -/
theorem perm_insert (h : m.find? k = none) : (m.insert k v).Perm ((k, v) :: m) := by
  induction m with
  | nil => exact .refl _
  | cons q m ih =>
    obtain ⟨k', v'⟩ := q
    unfold find? at h
    unfold insert
    split_ifs at h with heq
    rw [if_neg heq]
    split
    · exact .refl _
    · exact ((ih h).cons _).trans (.swap _ _ _)

/-- Behind smaller keys, a new entry is the last one. -/
theorem insert_of_forall_lt [Std.Asymm (α := κ) (· < ·)] (h : ∀ p ∈ m, p.1 < k) :
    m.insert k v = m ++ [(k, v)] := by
  induction m with
  | nil => rfl
  | cons p m ih =>
    have hlt : p.1 < k := h p List.mem_cons_self
    have hne : p.1 ≠ k := fun heq => asymm hlt (heq ▸ hlt)
    rw [insert, if_neg (asymm hlt), if_neg hne, ih fun q hq => h q (List.mem_cons_of_mem p hq),
      List.cons_append]

/-- The entries of an ordered map make it up again. -/
theorem foldl_insert_of_pairwise [Std.Asymm (α := κ) (· < ·)] {entries : List (κ × α)}
    (h : (entries.map Prod.fst).Pairwise (· < ·)) :
    entries.foldl (fun m p => OrderedMap.insert m p.1 p.2) [] = entries := by
  suffices happend : ∀ before : OrderedMap κ α,
      ((before ++ entries).map Prod.fst).Pairwise (· < ·) →
      entries.foldl (fun m p => OrderedMap.insert m p.1 p.2) before = before ++ entries from
    happend [] h
  clear h
  induction entries with
  | nil => exact fun before _ => (List.append_nil before).symm
  | cons p entries ih =>
    intro before hsorted
    have hlast : ∀ q ∈ before, q.1 < p.1 := by
      rw [List.map_append, List.pairwise_append] at hsorted
      exact fun q hq => hsorted.2.2 q.1 (List.mem_map_of_mem hq) p.1 (by simp)
    rw [List.foldl_cons, insert_of_forall_lt hlast, ih, List.append_assoc, List.singleton_append]
    rwa [List.append_assoc, List.singleton_append]

/-- An insertion keeps the order of the keys. -/
theorem pairwise_insert [IsTrans κ (· < ·)] [Std.Trichotomous (α := κ) (· < ·)]
    (h : (m.map Prod.fst).Pairwise (· < ·)) :
    ((m.insert k v).map Prod.fst).Pairwise (· < ·) := by
  induction m with
  | nil => exact List.pairwise_singleton _ _
  | cons p m ih =>
    obtain ⟨k', v'⟩ := p
    rw [List.map_cons, List.pairwise_cons] at h
    obtain ⟨hfirst, hrest⟩ := h
    unfold insert
    split
    · next hlt =>
      -- The new key comes before the first one.
      rw [List.map_cons, List.map_cons, List.pairwise_cons, List.pairwise_cons]
      refine ⟨fun a ha => ?_, hfirst, hrest⟩
      rcases List.mem_cons.mp ha with rfl | ha
      · exact hlt
      · exact IsTrans.trans _ _ _ hlt (hfirst a ha)
    · next hnlt =>
      split
      · next heq =>
        rw [List.map_cons, List.pairwise_cons]
        exact ⟨heq ▸ hfirst, hrest⟩
      · next hne =>
        have hlt : k' < k := (trichotomous_of (· < ·) k' k).resolve_right
          fun h => h.elim hne hnlt
        rw [List.map_cons, List.pairwise_cons]
        refine ⟨fun a ha => ?_, ih hrest⟩
        obtain ⟨p, hp, rfl⟩ := List.mem_map.mp ha
        rcases mem_of_mem_insert hp with rfl | hp
        · exact hlt
        · exact hfirst p.1 (List.mem_map_of_mem hp)

end OrderedMap
