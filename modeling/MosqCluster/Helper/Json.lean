import Mathlib.Data.Rat.Defs
import MosqCluster.Foundation.OrderedMap
import MosqCluster.Helper.XString

/-!
# JSON documents

`helper/json_wrapper.cpp`, over the values of `helper/jsoncpp`. A key of `JsonDocument` is a path:
`Get` and `Set` go down one object for each dot. Asking a value for a member raises
`Json::LogicError` unless the value is an object or null; nothing in `JsonDocument` looks at the
kind of a value before it asks. A member is kept under its key as long as that is shorter than
1 GiB; the length of a longer one is reduced to 30 bits.

`Json::Reader` is a parameter. All that is used of it is that an empty text leaves the root as it
is; it need not leave an object, whether it accepts a text or not, and it may throw. `Write` is left
out: what is written is the document.

## Main definitions

* `Json.Value`, with `find`, `isMember`, `index` and `assign`, and `Json.czString`;
* `JsonDocument`, with `parse`, `get` and `set`;
* `JsonDocument.LeavesFields`: the texts from which fields can be looked up;
* `Json.Value.Asks`: the values that are asked for a member on the way down a path.

## Main results

* `JsonDocument.getAs_isOk_iff`: a look-up returns if and only if every value that it asks for a
  member is an object or null.
-/

namespace MosqCluster

/-- What a function ends with that does not return. -/
inductive Exception where
  /-- `Json::LogicError`. -/
  | jsonLogicError (message : String)
  /-- `Json::RuntimeError`. -/
  | jsonRuntimeError (message : String)
  /-- The `std::logic_error` of a `std::string` that is made from `NULL`. -/
  | nullString
  /-- Undefined behaviour, of which anything may come. -/
  | undefinedBehaviour
  /-- The fuel of a loop of the model, which does not run out. -/
  | outOfFuel
  deriving DecidableEq

namespace Json

/-- `Json::Value`. A `real` that is no finite number is `none`. -/
inductive Value where
  | null
  | int (value : Int)
  | uint (value : Nat)
  | real (value : Option Rat)
  | string (value : Bytes)
  | bool (value : Bool)
  | array (values : List Value)
  | object (members : List (Bytes × Value))

/-- `Value::CZString`: the bytes of a key that are kept, whose number has 30 bits. -/
def czString (key : Bytes) : Bytes := key.take (key.length % 2 ^ 30)

/-- Of a key below 1 GiB, every byte is kept. -/
@[simp]
theorem czString_of_lt {key : Bytes} (h : key.length < 2 ^ 30) : czString key = key := by
  rw [czString, Nat.mod_eq_of_lt h, List.take_length]

namespace Value

/-- The precondition of a look-up: `type_ == nullValue || type_ == objectValue`. -/
def isNullOrObject : Value → Bool
  | null | object _ => true
  | _ => false

/-- `Value::isObject`. -/
def isObject : Value → Bool
  | object _ => true
  | _ => false

/-- `Value::find`; `none` is `NULL`. -/
def find (v : Value) (key : Bytes) : Except Exception (Option Value) :=
  match v with
  | null => .ok none
  | object members => .ok (OrderedMap.find? members (czString key))
  | _ => .error (.jsonLogicError
      "in Json::Value::find(key, end, found): requires objectValue or nullValue")

/-- `Value::isMember`. -/
def isMember (v : Value) (key : Bytes) : Except Exception Bool :=
  return (← v.find key).isSome

/-- `Value::operator[]` of a constant value. -/
def index (v : Value) (key : Bytes) : Except Exception Value :=
  return (← v.find key).getD null

/-- An assignment to `Value::resolveReference`. -/
def assign (v : Value) (key : Bytes) (value : Value) : Except Exception Value :=
  match v with
  | null => .ok (object (OrderedMap.insert [] (czString key) value))
  | object members => .ok (object (OrderedMap.insert members (czString key) value))
  | _ => .error (.jsonLogicError
      "in Json::Value::resolveReference(key, end): requires objectValue")

/-- `isInt`, and `asInt` where it holds. -/
def int? : Value → Option Int32
  | int value => if -2 ^ 31 ≤ value ∧ value < 2 ^ 31 then some (Int32.ofInt value) else none
  | uint value => if value < 2 ^ 31 then some (Int32.ofInt value) else none
  | real (some value) =>
    if value.den = 1 ∧ -2 ^ 31 ≤ value.num ∧ value.num < 2 ^ 31 then some (Int32.ofInt value.num)
    else none
  | _ => none

/-- `isString`, and `asString` where it holds. -/
def string? : Value → Option Bytes
  | string value => some value
  | _ => none

/-- `isArray`, and the elements where it holds. -/
def array? : Value → Option (List Value)
  | array values => some values
  | _ => none

/-- The member that a look-up finds. -/
def member? : Value → Bytes → Option Value
  | object members, key => OrderedMap.find? members (czString key)
  | _, _ => none

variable {v : Value} {key : Bytes}

theorem find_eq (v : Value) (key : Bytes) :
    v.find key =
      if v.isNullOrObject then .ok (v.member? key)
      else .error (.jsonLogicError
        "in Json::Value::find(key, end, found): requires objectValue or nullValue") := by
  cases v <;> rfl

theorem isMember_of_isNullOrObject (h : v.isNullOrObject = true) :
    v.isMember key = .ok (v.member? key).isSome := by
  rw [isMember, find_eq, if_pos h]
  rfl

theorem index_of_member {member : Value} (h : v.member? key = some member) :
    v.index key = .ok member := by
  cases v with
  | object members =>
    have hfind : (object members).find key = .ok (some member) := congrArg Except.ok h
    rw [index, hfind]
    rfl
  | _ => cases h

theorem isMember_of_not (h : v.isNullOrObject = false) :
    v.isMember key = .error (.jsonLogicError
      "in Json::Value::find(key, end, found): requires objectValue or nullValue") := by
  rw [isMember, find_eq, if_neg (by simp [h])]
  rfl

end Value

/-- `Json::Reader` with its default features: `parse` fills a root, and returns whether the text was
accepted, or it throws. -/
structure Reader where
  parse : Bytes → Value → Except Exception (Value × Bool)
  /-- An empty text is not accepted, and leaves the root as it is. -/
  parse_nil (root : Value) : parse [] root = .ok (root, false)

/-- A reader of a single text. -/
def Reader.only (text : Bytes) (value : Value) : Reader where
  parse doc root := .ok (if doc ≠ [] ∧ doc = text then (value, true) else (root, false))
  parse_nil _ := congrArg Except.ok (if_neg fun h => h.1 rfl)

end Json

/-! ## Documents -/

open Json

/-- `JsonDocument::Get` of a `Json::Value`; `none` where it returns `false`. -/
def Json.Value.get (parent : Value) (key : Bytes) : Except Exception (Option Value) :=
  match _ : findFrom key 46 0 with
  | none => do
    if ← parent.isMember key then return some (← parent.index key) else return none
  | some fpos => do
    let pkey := key.take fpos
    if ← parent.isMember pkey then get (← parent.index pkey) (key.drop (fpos + 1)) else return none
termination_by key.length
decreasing_by
  have := lt_length_of_findFrom ‹_›
  rw [List.length_drop]
  omega

/-- `JsonDocument::Set` of a `Json::Value`. -/
def Json.Value.set (parent : Value) (key : Bytes) (value : Value) : Except Exception Value :=
  match _ : findFrom key 46 0 with
  | none => parent.assign key value
  | some fpos => do
    let pkey := key.take fpos
    let child ← if ← parent.isMember pkey then parent.index pkey else pure .null
    let child := if child.isObject then child else .object []
    parent.assign pkey (← set child (key.drop (fpos + 1)) value)
termination_by key.length
decreasing_by
  have := lt_length_of_findFrom ‹_›
  rw [List.length_drop]
  omega

/-- `hlp::JsonDocument`. -/
structure JsonDocument where
  root : Value := .object []

namespace JsonDocument

/-- `Parse`. -/
def parse (d : JsonDocument) (reader : Reader) (doc : Bytes) :
    Except Exception (JsonDocument × Bool) := do
  let (root, successful) ← reader.parse (cString doc) d.root
  return (⟨root⟩, successful)

/-- The document that `Parse` makes of a text, whether it accepts the text or not. -/
def ofText (reader : Reader) (text : Bytes) : Except Exception JsonDocument := do
  let (d, _) ← ({} : JsonDocument).parse reader text
  return d

/-- `Parse` returns, and the root of the document has fields. -/
def LeavesFields (reader : Reader) (text : Bytes) : Prop :=
  ∃ d, ofText reader text = .ok d ∧ d.root.isNullOrObject = true

/-- An empty text leaves the empty object of a new document. -/
theorem ofText_nil (reader : Reader) : ofText reader [] = .ok {} := by
  rw [ofText, parse, cString, List.takeWhile_nil, reader.parse_nil]
  rfl

theorem ofText_only {text : Bytes} {value : Value} (hzero : 0 ∉ text) (hnil : text ≠ []) :
    ofText (.only text value) text = .ok ⟨value⟩ := by
  have hread : (Reader.only text value).parse text (.object []) = .ok (value, true) :=
    congrArg Except.ok (if_pos ⟨hnil, rfl⟩)
  rw [ofText, parse, cString_of_not_mem hzero, hread]
  rfl

/-- A document of a text is looked into if and only if its root has fields. -/
theorem ofText_bind_isOk_iff {β : Type} {reader : Reader} {text : Bytes}
    {next : JsonDocument → Except Exception β}
    (hnext : ∀ d, (next d).isOk ↔ d.root.isNullOrObject = true) :
    (ofText reader text >>= next).isOk ↔ LeavesFields reader text := by
  cases htext : ofText reader text with
  | error e =>
    refine iff_of_false Bool.false_ne_true ?_
    rintro ⟨d, hd, -⟩
    cases htext.symm.trans hd
  | ok d =>
    refine (hnext d).trans ⟨fun h => ⟨d, htext, h⟩, ?_⟩
    rintro ⟨d', hd, h⟩
    obtain rfl := Except.ok.inj (htext.symm.trans hd)
    exact h

/-- `Get`, with the test for the kind of value that it expects. -/
def getAs {α : Type} (convert : Value → Option α) (d : JsonDocument) (key : Bytes) :
    Except Exception (Option α) :=
  return (← d.root.get key).bind convert

/-- `Get` of an `int`. -/
def getInt (d : JsonDocument) (key : Bytes) : Except Exception (Option Int32) :=
  d.getAs Value.int? key

/-- `Get` of a `string`. -/
def getString (d : JsonDocument) (key : Bytes) : Except Exception (Option Bytes) :=
  d.getAs Value.string? key

/-- `Get` of a `vector<int>`, which leaves out the elements of another kind. -/
def getInts (d : JsonDocument) (key : Bytes) : Except Exception (Option (List Int32)) :=
  d.getAs (fun v => v.array?.map (List.filterMap Value.int?)) key

/-- `Get` of a `vector<string>`, which leaves out the elements of another kind. -/
def getStrings (d : JsonDocument) (key : Bytes) : Except Exception (Option (List Bytes)) :=
  d.getAs (fun v => v.array?.map (List.filterMap Value.string?)) key

/-- `Set`. -/
def set (d : JsonDocument) (key : Bytes) (value : Value) : Except Exception JsonDocument :=
  return ⟨← d.root.set key value⟩

end JsonDocument

/-! ## What a look-up asks for -/

namespace Json.Value

/-- The values that `Get` asks for a member on its way down a path. -/
inductive Asks : Value → Bytes → Value → Prop where
  /-- The value itself. -/
  | here (v : Value) (key : Bytes) : Asks v key v
  /-- What is asked for behind a dot, where the member before it exists. -/
  | behind {v member w : Value} {key : Bytes} {fpos : Nat} (hdot : findFrom key 46 0 = some fpos)
      (hmember : v.member? (key.take fpos) = some member)
      (hasks : Asks member (key.drop (fpos + 1)) w) : Asks v key w

variable {v w : Value} {key : Bytes}

theorem get_of_key (h : findFrom key 46 0 = none) (hv : v.isNullOrObject = true) :
    v.get key = .ok (v.member? key) := by
  rw [get]
  split
  · rw [isMember_of_isNullOrObject hv]
    cases hmember : v.member? key with
    | none => rfl
    | some member =>
      change (v.index key >>= fun value => pure (some value)) = _
      rw [index_of_member hmember]
      rfl
  · next heq =>
    rw [h] at heq
    cases heq

theorem get_of_path {fpos : Nat} (h : findFrom key 46 0 = some fpos)
    (hv : v.isNullOrObject = true) :
    v.get key =
      match v.member? (key.take fpos) with
      | none => .ok none
      | some member => member.get (key.drop (fpos + 1)) := by
  rw [get]
  split
  · next heq =>
    rw [h] at heq
    cases heq
  · next heq =>
    -- The member before the dot is asked for twice, by `isMember` and by `operator[]`.
    obtain rfl := Option.some.inj (h.symm.trans heq)
    dsimp only
    rw [isMember_of_isNullOrObject hv]
    cases hmember : v.member? (key.take fpos) with
    | none => rfl
    | some member =>
      change (v.index (key.take fpos) >>= fun value => value.get (key.drop (fpos + 1))) = _
      rw [index_of_member hmember]
      rfl

theorem set_of_key (h : findFrom key 46 0 = none) (value : Value) :
    v.set key value = v.assign key value := by
  rw [set]
  split
  · rfl
  · next heq =>
    rw [h] at heq
    cases heq

/-- A value of another kind is asked in vain. -/
theorem get_of_not (hv : v.isNullOrObject = false) : ¬ (v.get key).isOk := by
  rw [get]
  split
  · rw [isMember_of_not hv]
    exact Bool.false_ne_true
  · dsimp only
    rw [isMember_of_not hv]
    exact Bool.false_ne_true

/-- A look-up returns if and only if every value that it asks is an object or null. -/
theorem get_isOk_iff : (v.get key).isOk ↔ ∀ w, v.Asks key w → w.isNullOrObject = true := by
  induction hlen : key.length using Nat.strong_induction_on generalizing v key with
  | _ n ih =>
    cases hv : v.isNullOrObject with
    | false =>
      refine iff_of_false (get_of_not hv) fun hall => ?_
      rw [hall v (.here v key)] at hv
      cases hv
    | true =>
      cases hdot : findFrom key 46 0 with
      | none =>
        rw [get_of_key hdot hv]
        refine iff_of_true rfl fun w hw => ?_
        cases hw with
        | here => exact hv
        | behind hdot' => cases hdot.symm.trans hdot'
      | some fpos =>
        rw [get_of_path hdot hv]
        cases hmember : v.member? (key.take fpos) with
        | none =>
          refine iff_of_true rfl fun w hw => ?_
          cases hw with
          | here => exact hv
          | behind hdot' hmember' =>
            obtain rfl := Option.some.inj (hdot.symm.trans hdot')
            cases hmember.symm.trans hmember'
        | some member =>
          -- the look-up goes on in the member, with a shorter path
          have hlt := lt_length_of_findFrom hdot
          rw [ih (key.drop (fpos + 1)).length (by rw [List.length_drop]; omega) rfl]
          refine ⟨fun hall w hw => ?_, fun hall w hw => hall w (.behind hdot hmember hw)⟩
          cases hw with
          | here => exact hv
          | behind hdot' hmember' hasks =>
            obtain rfl := Option.some.inj (hdot.symm.trans hdot')
            obtain rfl := Option.some.inj (hmember.symm.trans hmember')
            exact hall w hasks

end Json.Value

namespace JsonDocument

variable {α : Type} {convert : Value → Option α} {d : JsonDocument} {key : Bytes}

/-- Whether a look-up returns does not depend on the kind of value that it expects. -/
theorem getAs_isOk_iff :
    (d.getAs convert key).isOk ↔ ∀ w, d.root.Asks key w → w.isNullOrObject = true := by
  rw [← Json.Value.get_isOk_iff, getAs]
  cases d.root.get key with
  | error e => exact Iff.rfl
  | ok v => exact Iff.rfl

/-- A key without a dot is looked up in the root. -/
theorem getAs_of_key (h : findFrom key 46 0 = none) (hroot : d.root.isNullOrObject = true) :
    d.getAs convert key = .ok ((d.root.member? key).bind convert) := by
  rw [getAs, Json.Value.get_of_key h hroot]
  rfl

/-- A root of another kind ends what begins with a look-up. -/
theorem getAs_bind_of_not {β : Type} (hroot : d.root.isNullOrObject = false)
    (next : Option α → Except Exception β) : ¬ (d.getAs convert key >>= next).isOk := by
  have hnot : ¬ (d.getAs convert key).isOk := fun hok => by
    rw [getAs_isOk_iff.mp hok d.root (.here d.root key)] at hroot
    cases hroot
  -- What follows is not reached.
  cases hget : d.getAs convert key with
  | error e => exact Bool.false_ne_true
  | ok v => exact absurd (by rw [hget]; rfl) hnot

/-- A key without a dot is set in an object. -/
theorem set_of_key {members : List (Bytes × Value)} (h : findFrom key 46 0 = none)
    (value : Value) : (JsonDocument.mk (.object members)).set key value =
      .ok ⟨.object (OrderedMap.insert members (czString key) value)⟩ := by
  rw [set, Json.Value.set_of_key h]
  rfl

theorem set_bind_of_key {β : Type} {members : List (Bytes × Value)} (h : findFrom key 46 0 = none)
    (value : Value) (next : JsonDocument → Except Exception β) :
    (JsonDocument.mk (.object members)).set key value >>= next =
      next ⟨.object (OrderedMap.insert members (czString key) value)⟩ := by
  rw [set_of_key h]
  rfl

end JsonDocument

end MosqCluster
