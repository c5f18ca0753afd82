import Mathlib.Data.List.Induction
import MosqCluster.Foundation.OrderedMap
import MosqCluster.Helper.XString

/-!
# Configurations

`helper/config.cpp`: a tree of sections, in which a dotted name is looked up section by section. A
name is only taken apart where at least two characters follow its first dot. The integer accessors
are left out.

## Main definitions

* `conf.Value`, with `get`, `getExist`, `set` and `archive`;
* `conf.locate`: the section and the key under which a name is archived.

## Main results

* `conf.Value.get?_set_self` and `conf.Value.get?_set_of_ne`: what is found after a call of `Set`;
* `conf.Value.get?_afterCalls`: what is found after any calls;
* `conf.Value.getExist_set_afterCalls`: a value is a finite map;
* `conf.Value.mem_archive_set` and `conf.Value.exists_archive_set`: what is archived after a call of
  `Set`.
-/

namespace MosqCluster

/-- `kSep`. -/
def kSep : UInt8 := 46

namespace conf

/-- The first section of a name, and the name in it. `none` is a name that is taken as it is. -/
def sectionSplit (name : Bytes) : Option (Bytes × Bytes) :=
  match findFrom name kSep 0 with
  | some fpos =>
    if fpos + 2 < name.length then some (name.take fpos, name.drop (fpos + 1)) else none
  | none => none

/-- A name is its first section, a dot, and at least two more characters. -/
theorem sectionSplit_eq_some {name prop rest : Bytes} (h : sectionSplit name = some (prop, rest)) :
    name = prop ++ kSep :: rest ∧ kSep ∉ prop ∧ 2 ≤ rest.length := by
  unfold sectionSplit at h
  split at h
  · next fpos hfind =>
    obtain ⟨hlt, heq⟩ := Option.ite_none_right_eq_some.mp h
    obtain ⟨rfl, rfl⟩ := Prod.mk.inj (Option.some.inj heq)
    obtain ⟨hname, hsep⟩ := eq_append_of_findFrom_zero hfind
    exact ⟨hname, hsep, by rw [List.length_drop]; omega⟩
  · cases h

/-- `conf::Value`. -/
structure Value where
  prop : OrderedMap Bytes Bytes
  child : List (Bytes × Value)

namespace Value

/-- A new value. -/
def empty : Value := ⟨[], []⟩

/-- `Value::Get`; `none` where the name does not exist. -/
def get? (v : Value) (name : Bytes) : Option Bytes :=
  match _ : sectionSplit name with
  | some (prop, rest) => (OrderedMap.find? v.child prop).bind fun c => c.get? rest
  | none => v.prop.find? name
termination_by name.length
decreasing_by
  obtain ⟨hname, -⟩ := sectionSplit_eq_some ‹_›
  rw [hname, List.length_append, List.length_cons]
  omega

/-- `Value::Get`, which returns an empty string where the name does not exist. -/
def get (v : Value) (name : Bytes) : Bytes := (v.get? name).getD []

/-- `Value::Get` with the flag `exist`. -/
def getExist (v : Value) (name : Bytes) : Bytes × Bool :=
  match _ : sectionSplit name with
  | some (prop, rest) =>
    match OrderedMap.find? v.child prop with
    | some c => c.getExist rest
    | none => ([], false)
  | none =>
    match v.prop.find? name with
    | some value => (value, true)
    | none => ([], false)
termination_by name.length
decreasing_by
  obtain ⟨hname, -⟩ := sectionSplit_eq_some ‹_›
  rw [hname, List.length_append, List.length_cons]
  omega

/-- `Value::Set`. -/
def set (v : Value) (name value : Bytes) : Value :=
  match _ : sectionSplit name with
  | some (pre, prop) =>
    { v with
      child := OrderedMap.insert v.child pre
        (((OrderedMap.find? v.child pre).getD empty).set prop value) }
  | none => { v with prop := v.prop.insert name value }
termination_by name.length
decreasing_by
  obtain ⟨hname, -⟩ := sectionSplit_eq_some ‹_›
  rw [hname, List.length_append, List.length_cons]
  omega

/-- A call of the callback of `Archive`. -/
structure Archived where
  vpath : Bytes
  name : Bytes
  value : Bytes

end Value

/-- The path of a child. -/
def childPath (vpath name : Bytes) : Bytes :=
  if vpath.isEmpty then name else vpath ++ kSep :: name

mutual

/-- `Value::Archive`: the calls of the callback, in their order. -/
def Value.archive (vpath : Bytes) : Value → List Value.Archived
  | ⟨prop, child⟩ => prop.map (fun p => ⟨vpath, p.1, p.2⟩) ++ archiveChildren vpath child

/-- The second loop of `Archive`. -/
def archiveChildren (vpath : Bytes) : List (Bytes × Value) → List Value.Archived
  | [] => []
  | (name, c) :: child => c.archive (childPath vpath name) ++ archiveChildren vpath child

end

/-- The path and the name under which `Archive` reports what is set under a name. -/
def locate (vpath name : Bytes) : Bytes × Bytes :=
  match _ : sectionSplit name with
  | some (prop, rest) => locate (childPath vpath prop) rest
  | none => (vpath, name)
termination_by name.length
decreasing_by
  obtain ⟨hname, -⟩ := sectionSplit_eq_some ‹_›
  rw [hname, List.length_append, List.length_cons]
  omega

/-! ## Looking up what has been set -/

namespace Value

variable {v : Value} {name name' value value' : Bytes}

theorem get?_of_section {prop rest : Bytes} (h : sectionSplit name = some (prop, rest)) :
    v.get? name = (OrderedMap.find? v.child prop).bind fun c => c.get? rest := by
  rw [get?]
  split
  · next heq =>
    rw [h] at heq
    cases heq
    rfl
  · next heq =>
    rw [h] at heq
    cases heq

theorem get?_of_key (h : sectionSplit name = none) : v.get? name = v.prop.find? name := by
  rw [get?]
  split
  · next heq =>
    rw [h] at heq
    cases heq
  · rfl

theorem set_of_section {pre prop : Bytes} (h : sectionSplit name = some (pre, prop)) :
    v.set name value =
      { v with
        child := OrderedMap.insert v.child pre
          (((OrderedMap.find? v.child pre).getD empty).set prop value) } := by
  rw [set]
  split
  · next heq =>
    rw [h] at heq
    cases heq
    rfl
  · next heq =>
    rw [h] at heq
    cases heq

theorem set_of_key (h : sectionSplit name = none) :
    v.set name value = { v with prop := v.prop.insert name value } := by
  rw [set]
  split
  · next heq =>
    rw [h] at heq
    cases heq
  · rfl

/-- Nothing is found in a new value. -/
theorem get?_empty (name : Bytes) : empty.get? name = none := by
  cases h : sectionSplit name with
  | none => exact get?_of_key h
  | some parts => exact get?_of_section h

theorem get_empty (name : Bytes) : empty.get name = [] := by rw [get, get?_empty]; rfl

/-- Names are taken apart section by section. -/
theorem name_induction {motive : Bytes → Prop}
    (section_ : ∀ name prop rest, sectionSplit name = some (prop, rest) → motive rest → motive name)
    (key : ∀ name, sectionSplit name = none → motive name) (name : Bytes) : motive name := by
  induction hlen : name.length using Nat.strong_induction_on generalizing name with
  | _ n ih =>
    cases h : sectionSplit name with
    | none => exact key name h
    | some parts =>
      -- The rest behind a section is shorter than the name.
      obtain ⟨hname, -⟩ := sectionSplit_eq_some h
      refine section_ name parts.1 parts.2 h (ih parts.2.length ?_ parts.2 rfl)
      rw [← hlen, hname, List.length_append, List.length_cons]
      omega

/-- What has been set is found. -/
theorem get?_set_self (v : Value) (name value : Bytes) :
    (v.set name value).get? name = some value := by
  induction name using name_induction generalizing v with
  | section_ name prop rest h ih =>
    rw [set_of_section h, get?_of_section h, OrderedMap.find?_insert_self]
    exact ih _
  | key name h => rw [set_of_key h, get?_of_key h, OrderedMap.find?_insert_self]

/-- The other names keep their values. -/
theorem get?_set_of_ne (v : Value) (value : Bytes) (h : name' ≠ name) :
    (v.set name value).get? name' = v.get? name' := by
  induction name using name_induction generalizing v name' with
  | section_ name prop rest hname ih =>
    rw [set_of_section hname]
    cases hname' : sectionSplit name' with
    | none => rw [get?_of_key hname', get?_of_key hname']
    | some parts =>
      obtain ⟨prop', rest'⟩ := parts
      rw [get?_of_section hname', get?_of_section hname']
      by_cases hprop : prop' = prop
      · -- the same section, in which the names are different
        subst hprop
        have hrest : rest' ≠ rest := by
          rintro rfl
          exact h ((sectionSplit_eq_some hname').1.trans (sectionSplit_eq_some hname).1.symm)
        rw [OrderedMap.find?_insert_self, Option.bind_some, ih _ hrest]
        cases OrderedMap.find? v.child prop' with
        | none => exact get?_empty rest'
        | some c => rfl
      · rw [OrderedMap.find?_insert_of_ne hprop]
  | key name hname =>
    rw [set_of_key hname]
    cases hname' : sectionSplit name' with
    | none =>
      rw [get?_of_key hname', get?_of_key hname']
      exact OrderedMap.find?_insert_of_ne h
    | some parts => rw [get?_of_section hname', get?_of_section hname']

/-- The flag says whether there is a value. -/
theorem getExist_eq (v : Value) (name : Bytes) :
    v.getExist name = (v.get name, (v.get? name).isSome) := by
  induction name using name_induction generalizing v with
  | section_ name prop rest hname ih =>
    rw [getExist, get, get?_of_section hname]
    split
    · next heq =>
      obtain ⟨rfl, rfl⟩ := Prod.mk.inj (Option.some.inj (hname.symm.trans heq))
      cases OrderedMap.find? v.child prop with
      | none => rfl
      | some c => exact ih c
    · next heq => cases hname.symm.trans heq
  | key name hname =>
    rw [getExist, get, get?_of_key hname]
    split
    · next heq => cases hname.symm.trans heq
    · cases v.prop.find? name <;> rfl

/-- A value after calls of `Set`. -/
def afterCalls (calls : List (Bytes × Bytes)) : Value :=
  calls.foldl (fun v call => v.set call.1 call.2) empty

/-- What is found is what the last call for the name has set. -/
theorem get?_afterCalls (calls : List (Bytes × Bytes)) (name : Bytes) :
    (afterCalls calls).get? name = (calls.reverse.find? (·.1 = name)).map (·.2) := by
  induction calls using List.reverseRecOn with
  | nil => exact get?_empty name
  | append_singleton calls call ih =>
    rw [afterCalls, List.foldl_append, List.foldl_cons, List.foldl_nil, List.reverse_append,
      List.reverse_singleton, List.singleton_append]
    by_cases hname : call.1 = name
    · rw [List.find?_cons_of_pos (by simpa using hname), hname, get?_set_self, Option.map_some]
    · rw [List.find?_cons_of_neg (by simpa using hname), get?_set_of_ne _ _ (Ne.symm hname)]
      exact ih

/-- After any calls of `Set`, a value is a finite map: one more call gives the name its value, and
leaves every other name as it is. -/
theorem getExist_set_afterCalls (calls : List (Bytes × Bytes)) (name value : Bytes) :
    ((afterCalls calls).set name value).getExist name = (value, true) ∧
      ∀ name', name' ≠ name →
        ((afterCalls calls).set name value).getExist name' = (afterCalls calls).getExist name' := by
  constructor
  · rw [getExist_eq, get, get?_set_self]
    rfl
  · intro name' hne
    rw [getExist_eq, getExist_eq, get, get, get?_set_of_ne _ value hne]

end Value

/-! ## What is archived -/

theorem locate_of_section {vpath name prop rest : Bytes}
    (h : sectionSplit name = some (prop, rest)) :
    locate vpath name = locate (childPath vpath prop) rest := by
  rw [locate]
  split
  · next heq =>
    rw [h] at heq
    cases heq
    rfl
  · next heq =>
    rw [h] at heq
    cases heq

theorem locate_of_key {vpath name : Bytes} (h : sectionSplit name = none) :
    locate vpath name = (vpath, name) := by
  rw [locate]
  split
  · next heq =>
    rw [h] at heq
    cases heq
  · rfl

/-- The calls for the children of a value. -/
theorem mem_archiveChildren {vpath : Bytes} {child : List (Bytes × Value)} {a : Value.Archived} :
    a ∈ archiveChildren vpath child ↔
      ∃ p ∈ child, a ∈ p.2.archive (childPath vpath p.1) := by
  induction child with
  | nil => simp [archiveChildren]
  | cons p child ih => simp [archiveChildren, ih]

namespace Value

variable {v : Value} {vpath name value : Bytes} {a : Archived}

/-- The calls for a value. -/
theorem mem_archive :
    a ∈ v.archive vpath ↔ (∃ p ∈ v.prop, a = ⟨vpath, p.1, p.2⟩) ∨
      ∃ p ∈ v.child, a ∈ p.2.archive (childPath vpath p.1) := by
  cases v
  rw [archive, List.mem_append, List.mem_map, mem_archiveChildren]
  simp only [eq_comm]

/-- What is found is archived. -/
theorem mem_archive_of_get? (h : v.get? name = some value) (vpath : Bytes) :
    ⟨(locate vpath name).1, (locate vpath name).2, value⟩ ∈ v.archive vpath := by
  induction name using name_induction generalizing v vpath with
  | section_ name prop rest hname ih =>
    rw [get?_of_section hname] at h
    obtain ⟨c, hc, hrest⟩ := Option.bind_eq_some_iff.mp h
    rw [locate_of_section hname]
    exact mem_archive.mpr (.inr ⟨_, OrderedMap.mem_of_find? hc, ih hrest _⟩)
  | key name hname =>
    rw [get?_of_key hname] at h
    rw [locate_of_key hname]
    exact mem_archive.mpr (.inl ⟨_, OrderedMap.mem_of_find? h, rfl⟩)

/-- After a call of `Set`, what it has set is archived, and nothing else is new. -/
theorem mem_archive_set (h : a ∈ (v.set name value).archive vpath) :
    a = ⟨(locate vpath name).1, (locate vpath name).2, value⟩ ∨ a ∈ v.archive vpath := by
  induction name using name_induction generalizing v vpath with
  | section_ name prop rest hname ih =>
    rw [set_of_section hname] at h
    rw [locate_of_section hname]
    rcases mem_archive.mp h with hprop | ⟨p, hp, ha⟩
    · exact .inr (mem_archive.mpr (.inl hprop))
    · rcases OrderedMap.mem_of_mem_insert hp with rfl | hp
      · -- The child in question is the old one with a new value, or an empty one.
        refine (ih ha).imp_right fun ha => ?_
        cases hc : OrderedMap.find? v.child prop with
        | none =>
          rw [hc] at ha
          cases ha
        | some c =>
          rw [hc] at ha
          exact mem_archive.mpr (.inr ⟨_, OrderedMap.mem_of_find? hc, ha⟩)
      · -- The other children have not changed.
        exact .inr (mem_archive.mpr (.inr ⟨p, hp, ha⟩))
  | key name hname =>
    rw [set_of_key hname] at h
    rw [locate_of_key hname]
    rcases mem_archive.mp h with ⟨p, hp, rfl⟩ | hchild
    · rcases OrderedMap.mem_of_mem_insert hp with rfl | hp
      · exact .inl rfl
      · exact .inr (mem_archive.mpr (.inl ⟨p, hp, rfl⟩))
    · exact .inr (mem_archive.mpr (.inr hchild))

/-- A call of `Set` takes no name away. -/
theorem exists_archive_set (h : a ∈ v.archive vpath) (name value : Bytes) :
    ∃ a' ∈ (v.set name value).archive vpath, a'.vpath = a.vpath ∧ a'.name = a.name := by
  induction name using name_induction generalizing v vpath with
  | section_ name prop rest hname ih =>
    rw [set_of_section hname]
    rcases mem_archive.mp h with hprop | ⟨p, hp, ha⟩
    · exact ⟨a, mem_archive.mpr (.inl hprop), rfl, rfl⟩
    · rcases OrderedMap.mem_insert_or_find? hp prop
        (((OrderedMap.find? v.child prop).getD empty).set rest value) with hmem | ⟨rfl, hfind⟩
      · exact ⟨a, mem_archive.mpr (.inr ⟨p, hmem, ha⟩), rfl, rfl⟩
      · -- The child is replaced, and the induction takes what was in it.
        obtain ⟨a', ha', hsame⟩ := ih ha
        refine ⟨a', mem_archive.mpr (.inr ⟨_, OrderedMap.mem_insert_self .., ?_⟩), hsame⟩
        rwa [hfind]
  | key name hname =>
    rw [set_of_key hname]
    rcases mem_archive.mp h with ⟨p, hp, rfl⟩ | hchild
    · rcases OrderedMap.mem_insert_or_find? hp name value with hmem | ⟨rfl, -⟩
      · exact ⟨_, mem_archive.mpr (.inl ⟨p, hmem, rfl⟩), rfl, rfl⟩
      · exact ⟨_, mem_archive.mpr (.inl ⟨_, OrderedMap.mem_insert_self .., rfl⟩), rfl, rfl⟩
    · exact ⟨a, mem_archive.mpr (.inr hchild), rfl, rfl⟩

end Value

end conf

end MosqCluster
