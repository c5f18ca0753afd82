import Mathlib.Data.List.Infix
import MosqCluster.Helper.Json

/-!
# Paths of JSON documents

`Append` of `helper/json_wrapper.cpp`, and what `Get` finds after a call of `Set` or `Append`. A key
is a path, whose components stand between the dots. Both calls replace what is no object on the way
down.

`jsoncpp` keeps 30 bits of the length of a component, and the size of an array in 32 bits.

## Main definitions

* `Json.Value.append` and `JsonDocument.append`;
* `Json.Value.reach` and `Json.Value.update`: a look-up, and a change, at the end of a path;
* `SetLaw`, `AppendLaw` and `FrameLaw`.

## Main results

* `Json.Value.get_eq_ok_some_iff`, `Json.Value.set_eq` and `Json.Value.append_eq`: what the
  functions do, as a look-up or a change at the end of a path;
* `pathLaws`: the laws; `storedUnrelated_iff`: for components below 1 GiB, in their plain form.
-/

namespace MosqCluster

open Json

/-! ## Appending -/

/-- `Value::append`, which assigns to the element behind the last one. The number of elements is
kept in 32 bits. -/
def Json.Value.appendElement (v element : Value) : Except Exception Value :=
  match v with
  | .null => .ok (.array [element])
  | .array values =>
    let size := values.length % 2 ^ 32
    .ok (.array (if size < values.length then values.set size element else values ++ [element]))
  | _ => .error (.jsonLogicError
      "in Json::Value::operator[](ArrayIndex): requires arrayValue")

/-- `Value::isArray`. -/
def Json.Value.isArray : Value → Bool
  | .array _ => true
  | _ => false

/-- `JsonDocument::Append` of a `Json::Value`. -/
def Json.Value.append (parent : Value) (key : Bytes) (value : Value) : Except Exception Value :=
  match _ : findFrom key 46 0 with
  | none => do
    let child ← if ← parent.isMember key then parent.index key else pure .null
    let child := if child.isArray then child else .array []
    parent.assign key (← child.appendElement value)
  | some fpos => do
    let pkey := key.take fpos
    let child ← if ← parent.isMember pkey then parent.index pkey else pure .null
    let child := if child.isObject then child else .object []
    parent.assign pkey (← append child (key.drop (fpos + 1)) value)
termination_by key.length
decreasing_by
  have := lt_length_of_findFrom ‹_›
  rw [List.length_drop]
  omega

/-- `JsonDocument::Append`. -/
def JsonDocument.append (d : JsonDocument) (key : Bytes) (value : Value) :
    Except Exception JsonDocument :=
  return ⟨← d.root.append key value⟩

/-! ## Paths -/

/-- The components of a key. -/
def components (key : Bytes) : List Bytes := key.splitOn 46

/-- The components as they are kept. -/
def storedPath (key : Bytes) : List Bytes := (components key).map czString

variable {key : Bytes}

theorem components_of_key (h : findFrom key 46 0 = none) : components key = [key] :=
  List.splitOn_eq_singleton (findFrom_eq_none_iff.mp h)

theorem components_of_path {fpos : Nat} (h : findFrom key 46 0 = some fpos) :
    components key = key.take fpos :: components (key.drop (fpos + 1)) := by
  obtain ⟨hkey, hdot⟩ := eq_append_of_findFrom_zero h
  have hsplit := List.splitOn_append_cons_self_of_not_mem hdot (key.drop (fpos + 1))
  rwa [← hkey] at hsplit

theorem storedPath_of_key (h : findFrom key 46 0 = none) : storedPath key = [czString key] := by
  rw [storedPath, components_of_key h, List.map_singleton]

theorem storedPath_of_path {fpos : Nat} (h : findFrom key 46 0 = some fpos) :
    storedPath key = czString (key.take fpos) :: storedPath (key.drop (fpos + 1)) := by
  rw [storedPath, components_of_path h, List.map_cons, storedPath]

/-- Components below 1 GiB are kept as they are. -/
theorem storedPath_of_lt (h : ∀ c ∈ components key, c.length < 2 ^ 30) :
    storedPath key = components key := by
  have hsame : ∀ c ∈ components key, czString c = id c := fun c hc => czString_of_lt (h c hc)
  rw [storedPath, List.map_congr_left hsame, List.map_id]

theorem storedPath_ne_nil (key : Bytes) : storedPath key ≠ [] := by
  rw [storedPath, components, Ne, List.map_eq_nil_iff]
  exact List.splitOn_ne_nil 46 key

/-- A key is taken apart at its first dot. -/
theorem key_induction {motive : Bytes → Prop}
    (last : ∀ key, findFrom key 46 0 = none → motive key)
    (path : ∀ key fpos, findFrom key 46 0 = some fpos → motive (key.drop (fpos + 1)) → motive key)
    (key : Bytes) : motive key := by
  induction hlen : key.length using Nat.strongRecOn generalizing key with
  | _ n ih =>
    cases h : findFrom key 46 0 with
    | none => exact last key h
    | some fpos =>
      have hlt := lt_length_of_findFrom h
      exact path key fpos h (ih _ (by rw [List.length_drop]; omega) _ rfl)

namespace Json.Value

/-- The members of an object, of which another value has none. -/
def members : Option Value → List (Bytes × Value)
  | some (object members) => members
  | _ => []

/-- The value at the end of a path. -/
def reach (v : Option Value) : List Bytes → Option Value
  | [] => v
  | c :: path => reach (OrderedMap.find? (members v) c) path

/-- A change of the value at the end of a path. -/
def update (leaf : Option Value → Value) (v : Option Value) : List Bytes → Value
  | [] => leaf v
  | c :: path =>
    object (OrderedMap.insert (members v) c
      (update leaf (OrderedMap.find? (members v) c) path))

variable {leaf : Option Value → Value} {v : Option Value} {path path' : List Bytes} {w : Value}

/-- At the end of the path there is what was put there. -/
theorem reach_update_self (leaf : Option Value → Value) (v : Option Value) (path : List Bytes) :
    reach (some (update leaf v path)) path = some (leaf (reach v path)) := by
  induction path generalizing v with
  | nil => rfl
  | cons c path ih =>
    rw [update, reach, members, OrderedMap.find?_insert_self]
    exact ih _

/-- What is at the end of an unrelated path stays there. -/
theorem reach_update_of_unrelated (habove : ¬ path <+: path') (hbelow : ¬ path' <+: path)
    (hreach : reach v path' = some w) : reach (some (update leaf v path)) path' = some w := by
  induction path generalizing v path' with
  | nil => exact absurd (List.nil_prefix) habove
  | cons c path ih =>
    cases path' with
    | nil => exact absurd (List.nil_prefix) hbelow
    | cons c' path' =>
      rw [update, reach, members]
      rw [reach] at hreach
      by_cases hc : c' = c
      · -- the paths part further down
        subst hc
        rw [OrderedMap.find?_insert_self]
        apply ih _ _ hreach
        · simpa using habove
        · simpa using hbelow
      · rwa [OrderedMap.find?_insert_of_ne hc]

/-! ## What the functions do -/

theorem member?_eq (v : Value) (key : Bytes) :
    v.member? key = OrderedMap.find? (members (some v)) (czString key) := by cases v <;> rfl

/-- There is nothing below nothing. -/
theorem reach_none (path : List Bytes) : reach none path = none := by
  induction path with
  | nil => rfl
  | cons c path ih => exact ih

theorem get_eq_ok_some_iff_of_not {v : Value} (hv : v.isNullOrObject = false) :
    v.get key = .ok (some w) ↔ reach (some v) (storedPath key) = some w := by
  obtain ⟨c, path, hpath⟩ := List.exists_cons_of_ne_nil (storedPath_ne_nil key)
  have hreach : reach (some v) (storedPath key) = none := by
    cases v with
    | object => cases hv
    | _ =>
      rw [hpath]
      exact reach_none path
  rw [hreach]
  apply iff_of_false
  · intro hget
    exact get_of_not hv (by rw [hget]; rfl)
  · exact nofun

/-- A look-up finds what is at the end of the path. -/
theorem get_eq_ok_some_iff {v : Value} :
    v.get key = .ok (some w) ↔ reach (some v) (storedPath key) = some w := by
  induction key using key_induction generalizing v with
  | last key h =>
    cases hv : v.isNullOrObject with
    | false => exact get_eq_ok_some_iff_of_not hv
    | true =>
      rw [get_of_key h hv, storedPath_of_key h, reach, reach, ← member?_eq]
      exact ⟨Except.ok.inj, congrArg Except.ok⟩
  | path key fpos h ih =>
    cases hv : v.isNullOrObject with
    | false => exact get_eq_ok_some_iff_of_not hv
    | true =>
      rw [get_of_path h hv, storedPath_of_path h, reach, ← member?_eq]
      cases v.member? (key.take fpos) with
      | none =>
        rw [reach_none]
        exact iff_of_false nofun nofun
      | some member => exact ih

variable {β : Type}

/-- The value that is looked up on the way down, which is null where there is none. -/
theorem descend (members : List (Bytes × Value)) (pkey : Bytes)
    (next : Value → Except Exception β) :
    ((object members).isMember pkey >>= fun found =>
        if found then (object members).index pkey >>= next else pure null >>= next) =
      next (((object members).member? pkey).getD null) := by
  rw [isMember_of_isNullOrObject rfl]
  cases hmember : (object members).member? pkey with
  | none => rfl
  | some member =>
    change ((object members).index pkey >>= next) = next member
    rw [index_of_member hmember]
    rfl

/-- What is no object is replaced by an empty one. -/
theorem object_of_child (child : Option Value) :
    (if (child.getD null).isObject then child.getD null else object []) =
      object (Value.members child) := by
  cases child with
  | none => rfl
  | some v => cases v <;> rfl

/-- A change below a value depends on its members only. -/
theorem update_members (leaf : Option Value → Value) (child : Option Value) (key : Bytes) :
    update leaf (some (object (Value.members child))) (storedPath key) =
      update leaf child (storedPath key) := by
  obtain ⟨c, path, hpath⟩ := List.exists_cons_of_ne_nil (storedPath_ne_nil key)
  rw [hpath]
  rfl

/-- `Set` puts a value at the end of the path. -/
theorem set_eq (members : List (Bytes × Value)) (key : Bytes) (value : Value) :
    (object members).set key value =
      .ok (update (fun _ => value) (some (object members)) (storedPath key)) := by
  induction key using key_induction generalizing members with
  | last key h =>
    rw [set_of_key h, storedPath_of_key h]
    rfl
  | path key fpos h ih =>
    rw [Value.set]
    split
    · next heq =>
      rw [h] at heq
      cases heq
    · next heq =>
      obtain rfl := Option.some.inj (h.symm.trans heq)
      -- the child is an object, or is replaced by one, and the induction goes on in it
      dsimp only
      rw [descend, object_of_child, ih, update_members, storedPath_of_path h]
      rfl

/-- What `Append` leaves at the end of the path. -/
def pushed (value : Value) (child : Option Value) : Value :=
  match child with
  | some (array values) =>
    let size := values.length % 2 ^ 32
    array (if size < values.length then values.set size value else values ++ [value])
  | _ => array [value]

theorem appendElement_of_child (child : Option Value) (value : Value) :
    (if (child.getD null).isArray then child.getD null else array []).appendElement value =
      .ok (pushed value child) := by
  cases child with
  | none => rfl
  | some v => cases v <;> rfl

/-- `Append` changes the value at the end of the path. -/
theorem append_eq (members : List (Bytes × Value)) (key : Bytes) (value : Value) :
    (object members).append key value =
      .ok (update (pushed value) (some (object members)) (storedPath key)) := by
  induction key using key_induction generalizing members with
  | last key h =>
    rw [append]
    split
    · -- the last component, under which there is an array in the end
      dsimp only
      rw [descend, appendElement_of_child, storedPath_of_key h]
      rfl
    · next heq =>
      rw [h] at heq
      cases heq
  | path key fpos h ih =>
    rw [append]
    split
    · next heq =>
      rw [h] at heq
      cases heq
    · next heq =>
      obtain rfl := Option.some.inj (h.symm.trans heq)
      -- on the way down, `Append` does what `Set` does
      dsimp only
      rw [descend, object_of_child, ih, update_members, storedPath_of_path h]
      rfl

end Json.Value

/-! ## The laws -/

section Laws

variable (d : JsonDocument) (k : Bytes) (value : Value)

/-- After `Set`, the value is found. -/
def SetLaw : Prop :=
  ∃ d', d.set k value = .ok d' ∧ d'.root.get k = .ok (some value)

/-- The elements of an array, of which there are none in another value. -/
def Json.Value.elements : Option Value → List Value
  | some (.array values) => values
  | _ => []

/-- The elements of the array under a key, if there is one. -/
def elementsAt : List Value :=
  match d.root.get k with
  | .ok found => Value.elements found
  | .error _ => []

/-- After `Append`, an array is found that the value has been added to. -/
def AppendLaw : Prop :=
  ∃ d', d.append k value = .ok d' ∧ d'.root.get k = .ok (some (.array (elementsAt d k ++ [value])))

/-- Neither call changes what is found under an unrelated key. -/
def FrameLaw (unrelated : Bytes → Bytes → Prop) : Prop :=
  ∀ d', d.set k value = .ok d' ∨ d.append k value = .ok d' → ∀ m w, unrelated m k →
    d.root.get m = .ok (some w) → d'.root.get m = .ok (some w)

/-- The components of neither key begin those of the other. -/
def Unrelated (m k : Bytes) : Prop :=
  ¬ components m <+: components k ∧ ¬ components k <+: components m

/-- The same for the components as they are kept. -/
def StoredUnrelated (m k : Bytes) : Prop :=
  ¬ storedPath m <+: storedPath k ∧ ¬ storedPath k <+: storedPath m

end Laws

variable {d : JsonDocument} {k : Bytes} {value : Value}

/-- A root that is an object has its members. -/
theorem exists_members (hroot : d.root.isObject = true) : ∃ members, d = ⟨.object members⟩ := by
  obtain ⟨root⟩ := d
  cases root with
  | object members => exact ⟨members, rfl⟩
  | _ => cases hroot

theorem JsonDocument.set_eq (members : List (Bytes × Value)) (k : Bytes) (value : Value) :
    (JsonDocument.mk (.object members)).set k value =
      .ok ⟨Value.update (fun _ => value) (some (.object members)) (storedPath k)⟩ := by
  rw [JsonDocument.set, Value.set_eq]
  rfl

theorem JsonDocument.append_eq (members : List (Bytes × Value)) (k : Bytes) (value : Value) :
    (JsonDocument.mk (.object members)).append k value =
      .ok ⟨Value.update (Value.pushed value) (some (.object members)) (storedPath k)⟩ := by
  rw [JsonDocument.append, Value.append_eq]
  rfl

theorem setLaw (hroot : d.root.isObject = true) : SetLaw d k value := by
  obtain ⟨members, rfl⟩ := exists_members hroot
  refine ⟨_, JsonDocument.set_eq members k value, ?_⟩
  rw [Value.get_eq_ok_some_iff]
  exact Value.reach_update_self _ _ _

/-- What is found under a key is at the end of its path. -/
theorem elementsAt_eq (d : JsonDocument) (k : Bytes) :
    elementsAt d k = Value.elements (Value.reach (some d.root) (storedPath k)) := by
  cases hreach : Value.reach (some d.root) (storedPath k) with
  | some w => rw [elementsAt, Value.get_eq_ok_some_iff.mpr hreach]
  | none =>
    rw [elementsAt]
    cases hget : d.root.get k with
    | error => rfl
    | ok found =>
      cases found with
      | none => rfl
      | some w =>
        rw [Value.get_eq_ok_some_iff.mp hget] at hreach
        cases hreach

theorem Json.Value.pushed_eq {found : Option Value} (h : (elements found).length < 2 ^ 32) :
    pushed value found = .array (elements found ++ [value]) := by
  cases found with
  | none => rfl
  | some v =>
    cases v with
    | array values =>
      rw [elements] at h
      rw [pushed, Nat.mod_eq_of_lt h]
      exact congrArg Value.array (if_neg (Nat.lt_irrefl _))
    | _ => rfl

theorem appendLaw (hroot : d.root.isObject = true) (hsize : (elementsAt d k).length < 2 ^ 32) :
    AppendLaw d k value := by
  rw [elementsAt_eq] at hsize
  rw [AppendLaw, elementsAt_eq]
  obtain ⟨members, rfl⟩ := exists_members hroot
  refine ⟨_, JsonDocument.append_eq members k value, ?_⟩
  rw [Value.get_eq_ok_some_iff, ← Value.pushed_eq hsize]
  exact Value.reach_update_self _ _ _

theorem frameLaw (hroot : d.root.isObject = true) : FrameLaw d k value StoredUnrelated := by
  obtain ⟨members, rfl⟩ := exists_members hroot
  intro d' hd' m w hmk hget
  have hchange : ∃ leaf, d' = ⟨Value.update leaf (some (.object members)) (storedPath k)⟩ := by
    rcases hd' with hset | happend
    · exact ⟨_, Except.ok.inj (hset.symm.trans (JsonDocument.set_eq members k value))⟩
    · exact ⟨_, Except.ok.inj (happend.symm.trans (JsonDocument.append_eq members k value))⟩
  obtain ⟨leaf, rfl⟩ := hchange
  rw [Value.get_eq_ok_some_iff] at hget ⊢
  exact Value.reach_update_of_unrelated hmk.2 hmk.1 hget

/-- For every document whose root is an object, `Set` and `Append` do what they say at the end of
the path, and leave what is found elsewhere. -/
theorem pathLaws (hroot : d.root.isObject = true) :
    SetLaw d k value ∧ ((elementsAt d k).length < 2 ^ 32 → AppendLaw d k value) ∧
      FrameLaw d k value StoredUnrelated :=
  ⟨setLaw hroot, appendLaw hroot, frameLaw hroot⟩

/-- A path to an array, and what is beside it. -/
theorem pathLaws_nested :
    let d : JsonDocument := ⟨.object [([97], .object [([98], .array [.null])]), ([99], .int 1)]⟩
    SetLaw d [97, 46, 98] (.int 2) ∧ AppendLaw d [97, 46, 98] (.int 2) ∧
      FrameLaw d [97, 46, 98] (.int 2) StoredUnrelated := by
  intro d
  have hlaws : SetLaw d [97, 46, 98] (.int 2) ∧
      ((elementsAt d [97, 46, 98]).length < 2 ^ 32 → AppendLaw d [97, 46, 98] (.int 2)) ∧
      FrameLaw d [97, 46, 98] (.int 2) StoredUnrelated := pathLaws rfl
  refine ⟨hlaws.1, hlaws.2.1 ?_, hlaws.2.2⟩
  rw [elementsAt_eq]
  exact (by decide : 1 < 2 ^ 32)

/-- For components below 1 GiB it makes no difference how they are kept. -/
theorem storedUnrelated_iff {m : Bytes} (hm : ∀ c ∈ components m, c.length < 2 ^ 30)
    (hk : ∀ c ∈ components k, c.length < 2 ^ 30) : StoredUnrelated m k ↔ Unrelated m k := by
  rw [StoredUnrelated, Unrelated, storedPath_of_lt hm, storedPath_of_lt hk]

/-- An array of `2 ^ 32` elements has its first one replaced. -/
theorem not_appendLaw_of_length {values : List Value} (h : values.length = 2 ^ 32) :
    ¬ AppendLaw ⟨.object [([], .array values)]⟩ [] .null := by
  have hpath : storedPath [] = [[]] := rfl
  rintro ⟨d', happend, hget⟩
  rw [JsonDocument.append_eq] at happend
  obtain rfl := Except.ok.inj happend
  rw [Value.get_eq_ok_some_iff, Value.reach_update_self, elementsAt_eq, hpath] at hget
  have hpushed : Value.pushed .null (some (.array values)) = .array (values ++ [.null]) :=
    Option.some.inj hget
  rw [Value.pushed, h, Nat.mod_self, if_pos (Nat.two_pow_pos 32)] at hpushed
  have hlength := congrArg List.length (Value.array.inj hpushed)
  rw [List.length_set, List.length_append] at hlength
  exact absurd hlength (Nat.ne_of_lt (Nat.lt_succ_self _))

/-- Of a key of 1 GiB no byte is kept. -/
theorem not_frameLaw_of_length {m : Bytes} (h : m.length = 2 ^ 30) (hdot : 46 ∉ m) :
    ¬ FrameLaw ⟨.object [([], .int 1)]⟩ [] (.int 2) Unrelated := by
  have hpath : storedPath m = [[]] := by
    rw [storedPath_of_key (findFrom_eq_none_iff.mpr hdot), czString, h, Nat.mod_self,
      List.take_zero]
  have hcomponents : components m = [m] := components_of_key (findFrom_eq_none_iff.mpr hdot)
  have hne : m ≠ [] := by
    rintro rfl
    exact absurd h (Nat.ne_of_lt (Nat.two_pow_pos 30))
  have hunrelated : Unrelated m [] := by
    rw [Unrelated, hcomponents]
    change ¬ [m] <+: [[]] ∧ ¬ [[]] <+: [m]
    simp [hne, hne.symm]
  intro hframe
  have hafter := hframe _ (.inl (JsonDocument.set_eq _ _ _)) m (.int 1) hunrelated
    (Value.get_eq_ok_some_iff.mpr (by rw [hpath]; rfl))
  rw [Value.get_eq_ok_some_iff, hpath] at hafter
  cases hafter

/-- An array that has no place for an element, and a key that is too long to be kept. -/
theorem not_pathLaws :
    ¬ AppendLaw ⟨.object [([], .array (List.replicate (2 ^ 32) .null))]⟩ [] .null ∧
      ¬ FrameLaw ⟨.object [([], .int 1)]⟩ [] (.int 2) Unrelated :=
  ⟨not_appendLaw_of_length List.length_replicate,
    not_frameLaw_of_length (List.length_replicate (n := 2 ^ 30) (a := 97))
      fun hdot => absurd (List.eq_of_mem_replicate hdot) (by decide)⟩

end MosqCluster
