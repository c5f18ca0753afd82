import Mathlib.Data.List.Basic
import Mathlib.Logic.Function.Basic
import Mathlib.Data.Int.Order.Basic

/-!
# Maps whose entries expire

A map from keys to values in which every entry may carry a deadline. An entry is there before its
deadline and gone from it on; an entry without a deadline stays.

## Main definitions

* `TtlMap`: the maps, with `TtlMap.get` and `TtlMap.set`;
* `TtlMap.deadline`: the deadline of an entry with a lifetime, negative for none;
* `TtlMap.lookup`: the same in a list of entries, of which the first one of a key counts;
* `TtlMap.Represents`: from a given time on, a list and a map give the same values.

## Main results

* `TtlMap.Represents.append` and `TtlMap.Represents.replace`: how a list follows an update of the
  map, by an entry at its end or by one in the place of another.
-/

/-- A map from keys to values with optional deadlines. -/
def TtlMap (Key Value : Type*) := Key → Option (Value × Option ℤ)

namespace TtlMap

variable {Key Value : Type*}

/-- The map without entries. -/
def empty : TtlMap Key Value := fun _ => none

/-- The value at `key`, if there is one and its deadline has not come at time `now`. -/
def get (m : TtlMap Key Value) (key : Key) (now : ℤ) : Option Value :=
  match m key with
  | none => none
  | some (value, none) => some value
  | some (value, some deadline) => if now < deadline then some value else none

/-- The deadline of an entry that is set at time `now` with a lifetime; a negative lifetime means
that the entry does not expire. -/
def deadline (now lifetime : ℤ) : Option ℤ := if 0 ≤ lifetime then some (now + lifetime) else none

/-- The empty map has nothing at any key. -/
@[simp]
theorem get_empty (key : Key) (now : ℤ) : (empty : TtlMap Key Value).get key now = none := rfl

/-- A value that is there at some time has been there before. -/
theorem get_of_le {m : TtlMap Key Value} {key : Key} {value : Value} {now later : ℤ}
    (hle : now ≤ later) (h : m.get key later = some value) : m.get key now = some value := by
  rw [get] at h ⊢
  cases hentry : m key with
  | none => simp [hentry] at h
  | some entry =>
    obtain ⟨v, _ | deadline⟩ := entry
    · simpa [hentry] using h
    · simp only [hentry, Option.ite_none_right_eq_some] at h ⊢
      exact ⟨by omega, h.2⟩

/-- Replace the entry at `key` at time `now`. -/
def set [DecidableEq Key] (m : TtlMap Key Value) (key : Key) (value : Value) (now lifetime : ℤ) :
    TtlMap Key Value :=
  Function.update m key (some (value, deadline now lifetime))

/-! ## Lists of entries -/

/-- An entry with a deadline. -/
structure Entry (Key Value : Type*) where
  key : Key
  value : Value
  deadline : ℤ

variable [DecidableEq Key] {m : TtlMap Key Value} {es before after : List (Entry Key Value)}
  {old : Entry Key Value} {key : Key} {value : Value} {now later since lifetime : ℤ}

/-- The value of the first entry of `key`, if its deadline has not come at time `now`. -/
def lookup (es : List (Entry Key Value)) (key : Key) (now : ℤ) : Option Value :=
  (es.find? (·.key = key)).bind fun e => if now < e.deadline then some e.value else none

/-- From `now` on, the list gives the values of the map. -/
def Represents (es : List (Entry Key Value)) (m : TtlMap Key Value) (now : ℤ) : Prop :=
  ∀ key t, now ≤ t → lookup es key t = m.get key t

/-- The list without entries represents the empty map. -/
theorem represents_nil : Represents ([] : List (Entry Key Value)) empty now := fun _ _ _ => rfl

/-- The value at the key of an update. -/
theorem get_set_self (hlife : 0 ≤ lifetime) (t : ℤ) :
    (m.set key value now lifetime).get key t = if t < now + lifetime then some value else none := by
  have hself : m.set key value now lifetime key = some (value, deadline now lifetime) :=
    Function.update_self ..
  rw [get, hself, deadline, if_pos hlife]

/-- The value at the key of an update without a deadline. -/
theorem get_set_self_of_neg (hlife : lifetime < 0) (t : ℤ) :
    (m.set key value now lifetime).get key t = some value := by
  have hself : m.set key value now lifetime key = some (value, deadline now lifetime) :=
    Function.update_self ..
  rw [get, hself, deadline, if_neg (by omega)]

/-- An update leaves every other key alone. -/
theorem get_set_of_ne {other : Key} (hne : other ≠ key) (t : ℤ) :
    (m.set key value now lifetime).get other t = m.get other t := by
  have hother : m.set key value now lifetime other = m other := Function.update_of_ne hne ..
  rw [get, hother, get]

/-- Entries of other keys do not matter. -/
theorem lookup_append_of_forall_ne (h : ∀ e ∈ before, e.key ≠ key) (t : ℤ) :
    lookup (before ++ after) key t = lookup after key t := by
  have : before.find? (·.key = key) = none :=
    List.find?_eq_none.mpr fun e he => by simpa using h e he
  rw [lookup, List.find?_append, this, Option.none_or, lookup]

/-- An entry of another key does not matter. -/
theorem lookup_cons_of_ne (h : old.key ≠ key) (t : ℤ) :
    lookup (old :: es) key t = lookup es key t := by
  rw [lookup, List.find?_cons_of_neg (by simpa using h), lookup]

/-- The first entry of a key decides. -/
theorem lookup_cons_self (t : ℤ) :
    lookup (⟨key, value, now⟩ :: es) key t = if t < now then some value else none := by
  simp [lookup]

/-- What comes behind an entry of the key does not matter. -/
theorem lookup_append_of_exists (h : ∃ e ∈ before, e.key = key) (t : ℤ) :
    lookup (before ++ after) key t = lookup before key t := by
  obtain ⟨e, he⟩ : ∃ e, before.find? (·.key = key) = some e := by
    rw [← Option.isSome_iff_exists, List.find?_isSome]
    simpa using h
  rw [lookup, List.find?_append, he, Option.some_or, lookup, he]

/-- A new key may be put at the end. -/
theorem Represents.append (h : Represents es m now) (hlater : now ≤ later) (hlife : 0 ≤ lifetime)
    (hnew : ∀ e ∈ es, e.key ≠ key) :
    Represents (es ++ [⟨key, value, since + lifetime⟩]) (m.set key value since lifetime) later := by
  intro other t ht
  by_cases hother : other = key
  · rw [hother, get_set_self hlife, lookup_append_of_forall_ne hnew, lookup_cons_self]
  · rw [get_set_of_ne hother, ← h other t (le_trans hlater ht)]
    by_cases hold : ∃ e ∈ es, e.key = other
    · exact lookup_append_of_exists hold t
    · push Not at hold
      rw [lookup_append_of_forall_ne hold, lookup_cons_of_ne (Ne.symm hother),
        ← List.append_nil es, lookup_append_of_forall_ne hold]

/-- An entry may take the place of one of the same key, or of one that has expired, unless that one
hides another that has not. -/
theorem Represents.replace (h : Represents (before ++ old :: after) m now) (hlater : now ≤ later)
    (hlife : 0 ≤ lifetime) (hnew : ∀ e ∈ before, e.key ≠ key)
    (hold : old.key = key ∨ old.deadline ≤ later ∧ ((∃ e ∈ before, e.key = old.key) ∨
      ∀ e, after.find? (·.key = old.key) = some e → e.deadline ≤ later)) :
    Represents (before ++ ⟨key, value, since + lifetime⟩ :: after)
      (m.set key value since lifetime) later := by
  intro other t ht
  by_cases hother : other = key
  · rw [hother, get_set_self hlife, lookup_append_of_forall_ne hnew, lookup_cons_self]
  rw [get_set_of_ne hother, ← h other t (le_trans hlater ht)]
  by_cases hin : ∃ e ∈ before, e.key = other
  · -- The look-up ends before it comes to the entry.
    rw [lookup_append_of_exists hin, lookup_append_of_exists hin]
  have hnone : ∀ e ∈ before, e.key ≠ other := by
    intro e he heq
    exact hin ⟨e, he, heq⟩
  rw [lookup_append_of_forall_ne hnone, lookup_append_of_forall_ne hnone,
    lookup_cons_of_ne (Ne.symm hother)]
  by_cases hkey : old.key = other
  · -- The key of the entry that goes: it has expired, and so has whatever it hid.
    obtain heq | ⟨hexpired, hhid⟩ := hold
    · exact absurd (hkey.symm.trans heq) hother
    have hleft : lookup after other t = none := by
      rw [lookup]
      cases hfind : after.find? (·.key = other) with
      | none => rfl
      | some e =>
        have hdead : e.deadline ≤ later := by
          refine hhid.elim (fun hbefore => absurd (hkey ▸ hbefore) hin) fun hhid => ?_
          exact hhid e (by rw [hkey]; exact hfind)
        have : ¬ t < e.deadline := by omega
        simp [this]
    have hright : lookup (old :: after) other t = none := by
      have : ¬ t < old.deadline := by omega
      simp [lookup, hkey, this]
    rw [hleft, hright]
  · rw [lookup_cons_of_ne hkey]

end TtlMap
