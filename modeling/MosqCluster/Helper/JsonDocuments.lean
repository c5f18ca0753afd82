import MosqCluster.Helper.JsonPaths
import MosqCluster.Helper.JsonRoundTrip

/-!
# Documents between two programs

A document that one program builds with `Set` and `Append`, writes, and hands to another program as
a text. Whatever the calls were, every look-up in the document that the other program parses finds
what it finds in the document that was built. The strings are short enough for `jsoncpp`, the arrays
for the `int`s of its writer, and no path has more than 998 components, since deeper documents run
into the stack limit of the reader.

## Main definitions

* `DocumentCall` and `JsonDocument.run`: calls of `Set` and `Append`;
* `JsonDocument.Built`: the documents that calls may build.

## Main results

* `JsonDocument.getAs_canonical`: the value that is read answers as the one that was written;
* `JsonDocument.parse_write`: a document is handed over, whatever made it;
* `JsonDocument.run_write_parse`: and so is a document that was built.
-/

namespace MosqCluster

open Json

/-! ## Look-ups in what is read -/

namespace Json.Value

variable {v : Value} {key : Bytes}

theorem canonicalMembers_eq (members : List (Bytes × Value)) :
    canonicalMembers members = members.map fun p => (p.1, p.2.canonical) := by
  induction members with
  | nil => rfl
  | cons p members ih =>
    obtain ⟨name, value⟩ := p
    rw [canonicalMembers, List.map_cons, ih]

section Integers

variable (value : Int) (key : Bytes)

@[simp]
theorem isNullOrObject_ofInteger : (ofInteger value).isNullOrObject = false := by
  unfold ofInteger
  split <;> rfl

@[simp]
theorem member?_ofInteger : (ofInteger value).member? key = none := by
  unfold ofInteger
  split <;> rfl

@[simp]
theorem string?_ofInteger : (ofInteger value).string? = none := by
  unfold ofInteger
  split <;> rfl

@[simp]
theorem array?_ofInteger : (ofInteger value).array? = none := by
  unfold ofInteger
  split <;> rfl

/-- Either kind of integer is an `int` if it is in the range. -/
@[simp]
theorem int?_ofInteger : (ofInteger value).int? =
    if -2 ^ 31 ≤ value ∧ value < 2 ^ 31 then some (Int32.ofInt value) else none := by
  unfold ofInteger
  split
  · rfl
  · next h =>
    have hbig : ¬ value.toNat < 2 ^ 31 := by omega
    rw [int?, if_neg hbig, if_neg fun hrange => h hrange.2]

end Integers

theorem isNullOrObject_canonical (v : Value) :
    v.canonical.isNullOrObject = v.isNullOrObject := by
  cases v with
  | int value | uint value =>
    rw [canonical, isNullOrObject_ofInteger]
    rfl
  | _ => rfl

theorem member?_canonical (v : Value) (key : Bytes) :
    v.canonical.member? key = (v.member? key).map canonical := by
  cases v with
  | object members =>
    rw [canonical, member?, member?, canonicalMembers_eq]
    exact OrderedMap.find?_map (fun _ => canonical) members (czString key)
  | int value | uint value =>
    rw [canonical, member?_ofInteger]
    rfl
  | _ => rfl

theorem get_eq_error (hv : v.isNullOrObject = false) :
    v.get key = .error (.jsonLogicError
      "in Json::Value::find(key, end, found): requires objectValue or nullValue") := by
  rw [get]
  split
  · rw [isMember_of_not hv]
    rfl
  · dsimp only
    rw [isMember_of_not hv]
    rfl

/-- A look-up in the value that is read finds what is read of what it finds. -/
theorem get_canonical : v.canonical.get key = (v.get key).map (Option.map canonical) := by
  induction key using key_induction generalizing v with
  | last key h =>
    cases hv : v.isNullOrObject with
    | false => rw [get_eq_error hv, get_eq_error (by rw [isNullOrObject_canonical, hv])]; rfl
    | true =>
      rw [get_of_key h hv, get_of_key h (by rw [isNullOrObject_canonical, hv]), member?_canonical]
      rfl
  | path key fpos h ih =>
    cases hv : v.isNullOrObject with
    | false => rw [get_eq_error hv, get_eq_error (by rw [isNullOrObject_canonical, hv])]; rfl
    | true =>
      rw [get_of_path h hv, get_of_path h (by rw [isNullOrObject_canonical, hv]),
        member?_canonical]
      cases v.member? (key.take fpos) with
      | none => rfl
      | some member => exact ih

theorem int?_canonical (v : Value) : v.canonical.int? = v.int? := by
  cases v with
  | uint value =>
    rw [canonical, int?_ofInteger, int?]
    exact if_congr (by omega) rfl rfl
  | int value => rw [canonical, int?_ofInteger, int?]
  | _ => rfl

theorem string?_canonical (v : Value) : v.canonical.string? = v.string? := by
  cases v with
  | int value | uint value =>
    rw [canonical, string?_ofInteger]
    rfl
  | _ => rfl

theorem array?_canonical (v : Value) :
    v.canonical.array? = v.array?.map (List.map canonical) := by
  cases v with
  | array values => rw [canonical, canonicalElements_eq, array?, array?, Option.map_some]
  | int value | uint value =>
    rw [canonical, array?_ofInteger]
    rfl
  | _ => rfl

end Json.Value

namespace JsonDocument

variable {α : Type} {convert : Value → Option α}

/-- A look-up in the document that is read, which does not tell the kinds of integers apart. -/
theorem getAs_canonical (h : ∀ v, convert v.canonical = convert v) (d : JsonDocument)
    (key : Bytes) : (JsonDocument.mk d.root.canonical).getAs convert key = d.getAs convert key := by
  rw [getAs, getAs, Json.Value.get_canonical]
  cases d.root.get key with
  | error e => rfl
  | ok found =>
    cases found with
    | none => rfl
    | some v => exact congrArg Except.ok (h v)

/-- Two documents that no look-up tells apart. -/
structure Agrees (d d' : JsonDocument) : Prop where
  getInt : ∀ key, d.getInt key = d'.getInt key
  getString : ∀ key, d.getString key = d'.getString key
  getInts : ∀ key, d.getInts key = d'.getInts key
  getStrings : ∀ key, d.getStrings key = d'.getStrings key

theorem agrees_canonical (d : JsonDocument) : Agrees ⟨d.root.canonical⟩ d := by
  have helements : ∀ {α : Type} (convert : Value → Option α),
      (∀ v, convert v.canonical = convert v) → ∀ v : Value,
        v.canonical.array?.map (List.filterMap convert) =
          v.array?.map (List.filterMap convert) := by
    intro α convert hconvert v
    rw [Json.Value.array?_canonical, Option.map_map]
    congr 1
    funext values
    rw [Function.comp_apply, List.filterMap_map]
    exact List.filterMap_congr fun v _ => hconvert v
  exact {
    getInt := getAs_canonical Json.Value.int?_canonical d
    getString := getAs_canonical Json.Value.string?_canonical d
    getInts := getAs_canonical (helements _ Json.Value.int?_canonical) d
    getStrings := getAs_canonical (helements _ Json.Value.string?_canonical) d }

/-- A document is parsed from what `Write` makes of it, whatever the other document held, into one
that no look-up tells from it. -/
theorem parse_write {d : JsonDocument} {realToString : Option Rat → Bytes} {pretty : Bool}
    (hd : d.root.Writable) (hcounts : (writer realToString pretty).Counts d.root)
    (hdepth : d.root.depth ≤ stackLimit) (previous : JsonDocument)
    (toDouble : Bytes → Option (Option Rat)) :
    previous.parse (.jsonCpp toDouble) (d.write realToString pretty) =
        .ok (⟨d.root.canonical⟩, true) ∧
      Agrees ⟨d.root.canonical⟩ d :=
  ⟨parse_written hd hcounts hdepth previous toDouble, agrees_canonical d⟩

/-- An array of several kinds of values in an object, read into a document that holds a number. -/
theorem parse_write_nested :
    let d : JsonDocument := ⟨.object
      [([97], .array [.int (-5), .object [([98], .null)], .string [34, 10]]), ([98], .uint 7)]⟩
    (JsonDocument.mk (.int 1)).parse (.jsonCpp fun _ => none) (d.write (fun _ => []) true) =
      .ok (⟨d.root.canonical⟩, true) ∧ Agrees ⟨d.root.canonical⟩ d := by
  intro d
  have hwritable : d.root.Writable :=
    ⟨by decide, by decide, ⟨⟨by decide, by decide⟩, ⟨by decide, by decide, trivial, trivial⟩,
      (by decide : 2 ≤ 2 ^ 31 - 1 - 4 - 1), trivial⟩, by decide, (by decide : 7 < 2 ^ 64), trivial⟩
  have hcounts : (writer (fun _ => []) true).Counts d.root :=
    ⟨⟨by decide, by decide, trivial, ⟨trivial, trivial⟩, trivial, trivial⟩, trivial, trivial⟩
  exact parse_write hwritable hcounts (by decide) _ fun _ => none

end JsonDocument

/-! ## Documents that are built -/

/-- The array that `Set` makes of a vector, element by element. -/
def Json.Value.ofVector (elements : List Value) : Except Exception Value :=
  elements.foldlM Value.appendElement (.array [])

/-- A call of a `JsonDocument` that changes it. -/
inductive DocumentCall where
  | setInt (key : Bytes) (value : Int32)
  | setString (key value : Bytes)
  | setInts (key : Bytes) (value : List Int32)
  | setStrings (key : Bytes) (value : List Bytes)
  | appendInt (key : Bytes) (value : Int32)
  | appendString (key value : Bytes)

namespace DocumentCall

/-- The path that a call is about. -/
def key : DocumentCall → Bytes
  | setInt key _ | setString key _ | setInts key _ | setStrings key _ | appendInt key _
  | appendString key _ => key

/-- `Set` and `Append`, of the types that they take. -/
def run (d : JsonDocument) : DocumentCall → Except Exception JsonDocument
  | setInt key value => d.set key (.int value.toInt)
  | setString key value => do d.set key (← Value.ofString value)
  | setInts key value => do d.set key (← Value.ofVector (value.map fun v => .int v.toInt))
  | setStrings key value => do d.set key (← Value.ofVector (← value.mapM Value.ofString))
  | appendInt key value => d.append key (.int value.toInt)
  | appendString key value => do d.append key (← Value.ofString value)

end DocumentCall

/-- A new document after some calls. -/
def JsonDocument.run (calls : List DocumentCall) : Except Exception JsonDocument :=
  calls.foldlM DocumentCall.run {}

namespace Json

theorem writableMembers_iff {members : List (Bytes × Value)} :
    WritableMembers members ↔ ∀ p ∈ members, p.1.length < 2 ^ 30 ∧ p.2.Writable := by
  induction members with
  | nil => exact iff_of_true trivial fun p hp => by cases hp
  | cons p members ih =>
    obtain ⟨name, value⟩ := p
    rw [WritableMembers, ih, List.forall_mem_cons, and_assoc]

theorem writableElements_iff {values : List Value} :
    WritableElements values ↔ ∀ v ∈ values, v.Writable := by
  induction values with
  | nil => exact iff_of_true trivial fun v hv => by cases hv
  | cons v values ih => rw [WritableElements, ih, List.forall_mem_cons]

theorem depthMembers_le_iff {members : List (Bytes × Value)} {n : Nat} :
    depthMembers members ≤ n ↔ ∀ p ∈ members, p.2.depth ≤ n := by
  induction members with
  | nil => exact iff_of_true (Nat.zero_le n) fun p hp => by cases hp
  | cons p members ih =>
    obtain ⟨name, value⟩ := p
    rw [depthMembers, Nat.max_le, ih, List.forall_mem_cons]

theorem depthElements_le_iff {values : List Value} {n : Nat} :
    depthElements values ≤ n ↔ ∀ v ∈ values, v.depth ≤ n := by
  induction values with
  | nil => exact iff_of_true (Nat.zero_le n) fun v hv => by cases hv
  | cons v values ih => rw [depthElements, Nat.max_le, ih, List.forall_mem_cons]

namespace Value

/-- A value that is read back, and that is not deeper than the rest of the stack. -/
structure Fits (v : Value) (n : Nat) : Prop where
  writable : v.Writable
  depth : v.depth ≤ n

variable {v : Value} {n m : Nat}

theorem Fits.mono (h : v.Fits n) (hle : n ≤ m) : v.Fits m := ⟨h.writable, h.depth.trans hle⟩

theorem fits_object_iff {members : List (Bytes × Value)} :
    (object members).Fits (n + 1) ↔ (members.map Prod.fst).Pairwise (· < ·) ∧
      ∀ p ∈ members, p.1.length < 2 ^ 30 ∧ p.2.Fits n := by
  constructor
  · rintro ⟨⟨hsorted, hmembers⟩, hdepth⟩
    refine ⟨hsorted, fun p hp => ?_⟩
    obtain ⟨hname, hvalue⟩ := writableMembers_iff.mp hmembers p hp
    exact ⟨hname, hvalue, depthMembers_le_iff.mp (Nat.le_of_succ_le_succ hdepth) p hp⟩
  · rintro ⟨hsorted, hmembers⟩
    refine ⟨⟨hsorted, writableMembers_iff.mpr fun p hp => ?_⟩, Nat.succ_le_succ ?_⟩
    · exact ⟨(hmembers p hp).1, (hmembers p hp).2.writable⟩
    · exact depthMembers_le_iff.mpr fun p hp => (hmembers p hp).2.depth

theorem fits_array_iff {values : List Value} :
    (array values).Fits (n + 1) ↔ ∀ v ∈ values, v.Fits n := by
  constructor
  · rintro ⟨hvalues, hdepth⟩ v hv
    exact ⟨writableElements_iff.mp hvalues v hv,
      depthElements_le_iff.mp (Nat.le_of_succ_le_succ hdepth) v hv⟩
  · intro hvalues
    exact ⟨writableElements_iff.mpr fun v hv => (hvalues v hv).writable,
      Nat.succ_le_succ (depthElements_le_iff.mpr fun v hv => (hvalues v hv).depth)⟩

/-- The members of what fits fit one level deeper. -/
theorem fits_of_mem_members {child : Option Value} (h : ∀ v ∈ child, v.Fits (n + 1)) :
    ((members child).map Prod.fst).Pairwise (· < ·) ∧
      ∀ p ∈ members child, p.1.length < 2 ^ 30 ∧ p.2.Fits n := by
  cases child with
  | none => exact ⟨.nil, fun p hp => by cases hp⟩
  | some v =>
    cases v with
    | object ms => exact fits_object_iff.mp (h _ rfl)
    | _ => exact ⟨.nil, fun p hp => by cases hp⟩

/-- A change at the end of a path that is not too long. -/
theorem fits_update {leaf : Option Value → Value} {child : Option Value} {path : List Bytes}
    (hleaf : ∀ child : Option Value, (∀ v ∈ child, v.Fits n) → (leaf child).Fits n)
    (hchild : ∀ v ∈ child, v.Fits (n + path.length)) (hpath : ∀ c ∈ path, c.length < 2 ^ 30) :
    (update leaf child path).Fits (n + path.length) := by
  induction path generalizing child with
  | nil => exact hleaf child hchild
  | cons c path ih =>
    obtain ⟨hsorted, hmembers⟩ := fits_of_mem_members (n := n + path.length) hchild
    refine fits_object_iff.mpr ⟨OrderedMap.pairwise_insert hsorted, fun p hp => ?_⟩
    rcases OrderedMap.mem_of_mem_insert hp with rfl | hp
    · refine ⟨hpath c List.mem_cons_self, ih (fun v hv => ?_) fun c' hc' =>
        hpath c' (List.mem_cons_of_mem c hc')⟩
      exact (hmembers _ (OrderedMap.mem_of_find? hv)).2
    · exact hmembers p hp

theorem fits_int (value : Int32) : (int value.toInt).Fits 1 := by
  have hmin := Int32.le_toInt value
  have hmax := Int32.toInt_lt value
  exact ⟨⟨by omega, by omega⟩, Nat.le_refl 1⟩

theorem fits_ofString {value : Bytes} (h : ofString value = .ok v) : v.Fits 1 := by
  unfold ofString at h
  dsimp only at h
  split at h
  · next hlength =>
    obtain rfl := Except.ok.inj h
    exact ⟨(List.length_take_le _ _).trans hlength, Nat.le_refl 1⟩
  · cases h

/-- An element is put into an array. -/
theorem fits_pushed (hv : v.Fits n) (child : Option Value) (hchild : ∀ v ∈ child, v.Fits (n + 1)) :
    (pushed v child).Fits (n + 1) := by
  unfold pushed
  split
  · next values =>
    have hvalues := fits_array_iff.mp (hchild _ rfl)
    refine fits_array_iff.mpr fun w hw => ?_
    split at hw
    · rcases List.mem_or_eq_of_mem_set hw with hw | rfl
      · exact hvalues w hw
      · exact hv
    · rcases List.mem_append.mp hw with hw | hw
      · exact hvalues w hw
      · exact List.mem_singleton.mp hw ▸ hv
  · exact fits_array_iff.mpr fun w hw => List.mem_singleton.mp hw ▸ hv

theorem fits_ofVector {elements : List Value} (helements : ∀ v ∈ elements, v.Fits 1)
    (h : ofVector elements = .ok v) : v.Fits 2 := by
  suffices hfold : ∀ before : Value, before.Fits 2 → before.isArray = true →
      elements.foldlM appendElement before = .ok v → v.Fits 2 from
    hfold _ (fits_array_iff.mpr fun v hv => by cases hv) rfl h
  clear h
  induction elements with
  | nil =>
    intro before hbefore _ heq
    obtain rfl := Except.ok.inj heq
    exact hbefore
  | cons element elements ih =>
    intro before hbefore harray heq
    cases before with
    | array values =>
      rw [List.foldlM_cons] at heq
      refine ih (fun v hv => helements v (List.mem_cons_of_mem _ hv)) _ ?_ rfl heq
      exact fits_pushed (helements element List.mem_cons_self) (some (.array values))
        fun v hv => Option.some.inj hv ▸ hbefore
    | _ => cases harray

end Value

end Json

/-- What is left by one call after another. -/
theorem exists_of_bind_ok {ε α β : Type} {x : Except ε α} {f : α → Except ε β} {b : β}
    (h : x >>= f = .ok b) : ∃ a, x = .ok a ∧ f a = .ok b := by
  cases x with
  | error e => cases h
  | ok a => exact ⟨a, rfl, h⟩

/-- Each result comes of an element. -/
theorem exists_of_mem_mapM {ε α β : Type} {f : α → Except ε β} {l : List α} {results : List β}
    (h : l.mapM f = .ok results) {b : β} (hb : b ∈ results) : ∃ a ∈ l, f a = .ok b := by
  induction l generalizing results with
  | nil =>
    obtain rfl := Except.ok.inj h
    cases hb
  | cons a l ih =>
    rw [List.mapM_cons] at h
    obtain ⟨first, hfirst, h⟩ := exists_of_bind_ok h
    obtain ⟨rest, hrest, h⟩ := exists_of_bind_ok h
    obtain rfl := Except.ok.inj h
    rcases List.mem_cons.mp hb with rfl | hb
    · exact ⟨a, List.mem_cons_self, hfirst⟩
    · obtain ⟨a', ha', heq⟩ := ih hrest hb
      exact ⟨a', List.mem_cons_of_mem a ha', heq⟩

namespace JsonDocument

open Json.Value

variable {d d' : JsonDocument} {calls : List DocumentCall} {v : Value} {key : Bytes}

/-- A document that is an object, and that is read back. -/
def Built (d : JsonDocument) : Prop := d.root.isObject = true ∧ d.root.Fits stackLimit

theorem length_storedPath_lt : ∀ c ∈ storedPath key, c.length < 2 ^ 30 := by
  intro c hc
  obtain ⟨component, -, rfl⟩ := List.mem_map.mp hc
  exact (List.length_take_le _ _).trans_lt (Nat.mod_lt _ (Nat.two_pow_pos 30))

/-- A change at the end of a path keeps a document as it must be. -/
theorem built_update (hd : d.Built) {leaf : Option Value → Value}
    (hkey : (components key).length ≤ 998)
    (hleaf : ∀ n child, (∀ v ∈ child, v.Fits (n + 2)) → (leaf child).Fits (n + 2)) :
    Built ⟨update leaf (some d.root) (storedPath key)⟩ := by
  obtain ⟨c, path, hpath⟩ := List.exists_cons_of_ne_nil (storedPath_ne_nil key)
  have hlength : (storedPath key).length = (components key).length := List.length_map _
  have hstack : 1000 - (storedPath key).length + (storedPath key).length = stackLimit :=
    Nat.sub_add_cancel (by omega)
  have hfits : (update leaf (some d.root) (storedPath key)).Fits stackLimit := by
    rw [← hstack]
    refine fits_update (fun child hchild => ?_) (fun v hv => ?_) length_storedPath_lt
    · obtain ⟨n, hn⟩ := Nat.exists_eq_add_of_le' (by omega : 2 ≤ 1000 - (storedPath key).length)
      rw [hn] at hchild ⊢
      exact hleaf n child hchild
    · rw [hstack]
      exact Option.some.inj hv ▸ hd.2
  refine ⟨?_, hfits⟩
  rw [hpath]
  rfl

theorem built_set (hd : d.Built) (hkey : (components key).length ≤ 998) (hv : v.Fits 2)
    (h : d.set key v = .ok d') : d'.Built := by
  obtain ⟨members, rfl⟩ := exists_members hd.1
  obtain rfl := Except.ok.inj ((JsonDocument.set_eq members key v).symm.trans h)
  exact built_update hd hkey fun n _ _ => hv.mono (Nat.le_add_left 2 n)

theorem built_append (hd : d.Built) (hkey : (components key).length ≤ 998) (hv : v.Fits 1)
    (h : d.append key v = .ok d') : d'.Built := by
  obtain ⟨members, rfl⟩ := exists_members hd.1
  obtain rfl := Except.ok.inj ((JsonDocument.append_eq members key v).symm.trans h)
  exact built_update hd hkey fun n child hchild =>
    fits_pushed (hv.mono (Nat.le_add_left 1 n)) child hchild

/-- A call keeps a document as it must be. -/
theorem built_call {call : DocumentCall} (hd : d.Built)
    (hkey : (components call.key).length ≤ 998) (h : call.run d = .ok d') : d'.Built := by
  cases call with
  | setInt key value => exact built_set hd hkey ((fits_int value).mono (Nat.le_succ 1)) h
  | setString key value =>
    obtain ⟨v, hv, h⟩ := exists_of_bind_ok h
    exact built_set hd hkey ((fits_ofString hv).mono (Nat.le_succ 1)) h
  | setInts key value =>
    obtain ⟨v, hv, h⟩ := exists_of_bind_ok h
    refine built_set hd hkey (fits_ofVector (fun w hw => ?_) hv) h
    obtain ⟨number, -, rfl⟩ := List.mem_map.mp hw
    exact fits_int number
  | setStrings key value =>
    obtain ⟨values, hvalues, h⟩ := exists_of_bind_ok h
    obtain ⟨v, hv, h⟩ := exists_of_bind_ok h
    refine built_set hd hkey (fits_ofVector (fun w hw => ?_) hv) h
    obtain ⟨text, -, htext⟩ := exists_of_mem_mapM hvalues hw
    exact fits_ofString htext
  | appendInt key value => exact built_append hd hkey (fits_int value) h
  | appendString key value =>
    obtain ⟨v, hv, h⟩ := exists_of_bind_ok h
    exact built_append hd hkey (fits_ofString hv) h

/-- And so do the calls of a run. -/
theorem built_run (hkeys : ∀ call ∈ calls, (components call.key).length ≤ 998)
    (h : JsonDocument.run calls = .ok d) : d.Built := by
  suffices hfold : ∀ before : JsonDocument, before.Built →
      calls.foldlM DocumentCall.run before = .ok d → d.Built from
    hfold {} ⟨rfl, ⟨.nil, trivial⟩, by decide⟩ h
  clear h
  induction calls with
  | nil =>
    intro before hbefore heq
    obtain rfl := Except.ok.inj heq
    exact hbefore
  | cons call calls ih =>
    intro before hbefore heq
    rw [List.foldlM_cons] at heq
    obtain ⟨next, hnext, heq⟩ := exists_of_bind_ok heq
    exact ih (fun call hcall => hkeys call (List.mem_cons_of_mem _ hcall)) next
      (built_call hbefore (hkeys call List.mem_cons_self) hnext) heq

/-- A document that is built by calls of `Set` and `Append`, and written, is parsed into one that no
look-up tells from it, whatever the other document held. -/
theorem run_write_parse {realToString : Option Rat → Bytes} {pretty : Bool}
    (hkeys : ∀ call ∈ calls, (components call.key).length ≤ 998)
    (h : JsonDocument.run calls = .ok d) (hcounts : (writer realToString pretty).Counts d.root)
    (previous : JsonDocument) (toDouble : Bytes → Option (Option Rat)) :
    ∃ read, previous.parse (.jsonCpp toDouble) (d.write realToString pretty) = .ok (read, true) ∧
      read.Agrees d := by
  obtain ⟨-, hfits⟩ := built_run hkeys h
  exact ⟨_, parse_written hfits.writable hcounts hfits.depth previous toDouble, agrees_canonical d⟩

/-- A vector of numbers in a member of an object, and a string that is escaped. -/
theorem run_write_parse_nested :
    ∃ d read : JsonDocument,
      JsonDocument.run [.setInts [97, 46, 98] [1, -1], .appendString [99] [34, 10]] = .ok d ∧
        ({} : JsonDocument).parse (.jsonCpp fun _ => none) (d.write (fun _ => []) true) =
          .ok (read, true) ∧ read.Agrees d := by
  let first : JsonDocument :=
    ⟨update (fun _ => .array [.int 1, .int (-1)]) (some (.object [])) (storedPath [97, 46, 98])⟩
  let second : JsonDocument :=
    ⟨update (pushed (.string [34, 10])) (some first.root) (storedPath [99])⟩
  have hfirst : DocumentCall.run {} (.setInts [97, 46, 98] [1, -1]) = .ok first :=
    JsonDocument.set_eq [] [97, 46, 98] _
  have hsecond : DocumentCall.run first (.appendString [99] [34, 10]) = .ok second :=
    JsonDocument.append_eq _ [99] _
  have hrun : JsonDocument.run [.setInts [97, 46, 98] [1, -1], .appendString [99] [34, 10]] =
      .ok second := by
    rw [JsonDocument.run, List.foldlM_cons, hfirst]
    change DocumentCall.run first (.appendString [99] [34, 10]) >>= _ = _
    rw [hsecond]
    rfl
  have hkeys : ∀ call ∈ [DocumentCall.setInts [97, 46, 98] [1, -1], .appendString [99] [34, 10]],
      (components call.key).length ≤ 998 := by
    intro call hcall
    rcases List.mem_pair.mp hcall with rfl | rfl
    · exact (by decide : (components [97, 46, 98]).length ≤ 998)
    · exact (by decide : (components [99]).length ≤ 998)
  have hcounts : (writer (fun _ => []) true).Counts second.root :=
    ⟨⟨⟨by decide, by decide +kernel, trivial, trivial, trivial⟩, trivial⟩,
      ⟨by decide, by decide, trivial, trivial⟩, trivial⟩
  obtain ⟨read, hread, hagrees⟩ := run_write_parse hkeys hrun hcounts {} fun _ => none
  exact ⟨second, read, hrun, hread, hagrees⟩

end JsonDocument

end MosqCluster
