import MosqCluster.Foundation.TransitionSystem
import MosqCluster.Foundation.TtlMap
import MosqCluster.Helper.Cache.Layout

/-!
# The file cache as a map with deadlines

A file cache should be a `TtlMap`: `Get` returns the last value that was set, until its deadline.
It is one as long as four things do not happen. `Get` never returns an item without a deadline. An
item that needs more room than its slot has is not moved: the loop of `Write` empties the item
behind it, or what is at the address zero, and then goes on there. An item may fill the capacity of
its slot, but the next item starts where the first contents of the slot ended. And where the slot of
an expired item is given to another key, an older item of the first key comes to light.

## Main definitions

* `Cache` and `system`: sequences of calls of `Set`;
* `IsTtlMap`: the calls return, and `Get` gives what the map gives;
* `KeepsSlots`: the calls that none of this happens in.

## Main results

* `isTtlMap_keepsSlots`: while every call keeps its slot, the cache is a map with deadlines;
* `not_isTtlMap`: it is not one in general.
-/

namespace MosqCluster

namespace NativeFile

/-! ## Sequences of calls -/

/-- A call of `Set`, with the times at which `Set` and `Write` read the clock. -/
structure SetCall where
  key : Bytes
  value : Bytes
  expiresIn : Int64
  now : Int64
  later : Int64
  deriving DecidableEq, Repr

/-- A file cache, with the time of the last call and the entries that have been set. -/
structure Cache where
  file : ByteStore
  clock : Int64
  entries : TtlMap Bytes Bytes

/-- Calls of `Set` on a new file, while the clock does not go back and the file stays below
4 GiB. -/
def system : TransitionSystem Cache SetCall where
  init := ⟨fresh, 0, .empty⟩
  next c call :=
    if c.clock ≤ call.now ∧ call.now ≤ call.later then do
      let file ← set c.file call.key call.value call.expiresIn call.now call.later
      if file.size < 2 ^ 32 then
        some
          { file
            clock := call.later
            entries := c.entries.set call.key call.value call.now.toInt call.expiresIn.toInt }
      else none
    else none

/-- Whatever is reached by calls that meet `ok`, from then on `Get` returns what the map has, or the
empty string, and a further call of that kind comes back. -/
def IsTtlMap (ok : Cache → SetCall → Prop) [∀ c call, Decidable (ok c call)] : Prop :=
  ∀ c, (system.restrict ok).Reachable c →
    (∀ key now, c.clock ≤ now →
      (get c.file key now).map Prod.fst = some ((c.entries.get key now.toInt).getD [])) ∧
    ∀ call, ok c call → c.clock ≤ call.now → call.now ≤ call.later →
      (set c.file call.key call.value call.expiresIn call.now call.later).isSome

/-! ## The calls that keep their slots -/

/-- The items of the chain of a hash value. -/
def items (f : ByteStore) (h : Nat) : List (Nat × Item) :=
  (chain f (fuel f) (leNat (f.read (8 * h) 8))).getD []

section

variable (f : ByteStore) (item : Item) (now : Int64)

/-- The items that `Write` passes. -/
def passed : List (Nat × Item) :=
  (items f (hash item.key)).takeWhile fun p => !stopsAt item now p.2

/-- The item that `Write` stops at, and those behind it. -/
def stopped : List (Nat × Item) :=
  (items f (hash item.key)).dropWhile fun p => !stopsAt item now p.2

/-- The slot that `Write` stops at has enough room. -/
def HasRoom : Prop := ∀ p ∈ (stopped f item now).head?, item.capcity ≤ p.2.capcity

/-- The item ends before the next item in the file starts. -/
def EndsInTime : Prop :=
  ∀ p ∈ (stopped f item now).head?, ∀ h < buckets, ∀ q ∈ items f h,
    p.1 < q.1 → p.1 + item.length ≤ q.1

/-- Where the slot is that of another key, it is not the first of that key, or the next one of that
key has expired as well. -/
def UncoversNothing : Prop :=
  ∀ p ∈ (stopped f item now).head?, p.2.key = item.key ∨
    (∃ q ∈ passed f item now, q.2.key = p.2.key) ∨
      ∀ q ∈ (stopped f item now).tail.find? (·.2.key = p.2.key), q.2.expiresIn ≤ now

end

/-- A call with a lifetime that does not overflow, whose item keeps to its slot. -/
def KeepsSlots (c : Cache) (call : SetCall) : Prop :=
  let item := newItem call.key call.value call.expiresIn call.now
  (0 ≤ call.expiresIn ∧ call.now.toInt + call.expiresIn.toInt < 2 ^ 63) ∧
    HasRoom c.file item call.later ∧ EndsInTime c.file item call.later ∧
      UncoversNothing c.file item call.later

instance (f : ByteStore) (item : Item) (now : Int64) : Decidable (HasRoom f item now) :=
  inferInstanceAs (Decidable (∀ p ∈ _, _))

instance (f : ByteStore) (item : Item) (now : Int64) : Decidable (EndsInTime f item now) :=
  inferInstanceAs (Decidable (∀ p ∈ _, ∀ h < _, ∀ q ∈ _, _))

instance (f : ByteStore) (item : Item) (now : Int64) : Decidable (UncoversNothing f item now) :=
  inferInstanceAs (Decidable (∀ p ∈ _, _ ∨ _))

instance (c : Cache) (call : SetCall) : Decidable (KeepsSlots c call) :=
  inferInstanceAs (Decidable (_ ∧ _ ∧ _ ∧ _))

/-! ## Reading -/

/-- What an item says about its key. -/
def entry (p : Nat × Item) : TtlMap.Entry Bytes Bytes := ⟨p.2.key, p.2.value, p.2.expiresIn.toInt⟩

variable {f g : ByteStore} {slots before after : List (Nat × Item)} {item xr : Item}
  {slot : Nat} {key : Bytes} {now later : Int64} {m : TtlMap Bytes Bytes} {clock since lifetime : ℤ}

/-- In its bucket, an item is found that has a key if there is one at all. -/
theorem find?_bucket (key : Bytes) (slots : List (Nat × Item)) :
    (bucket (hash key) slots).find? (·.2.key = key) = slots.find? (·.2.key = key) := by
  rw [bucket, List.find?_filter]
  congr
  ext p
  by_cases h : p.2.key = key <;> simp [h]

/-- The items of a chain. -/
theorem Layout.items_eq (hl : Layout f slots) {h : Nat} (hh : h < buckets) :
    items f h = bucket h slots := by
  rw [items, hl.head_eq hh, hl.chain_eq, Option.getD_some]

/-- An item that is no longer than the one in its slot ends in time. -/
theorem Layout.endsInTime_of_length_le (hl : Layout f slots)
    (h : ∀ p ∈ (stopped f item now).head?, item.length ≤ p.2.length) :
    EndsInTime f item now := by
  intro p hp n hn q hq hlt
  have hp' : p ∈ slots := by
    have hmem := (List.dropWhile_suffix _).subset (List.mem_of_head? hp)
    rw [hl.items_eq (hash_lt item.key)] at hmem
    exact (List.mem_filter.mp hmem).1
  have hq' : q ∈ slots := by
    rw [hl.items_eq hn] at hq
    exact (List.mem_filter.mp hq).1
  -- The two items stand apart, and the one in the slot is the first of them.
  obtain ⟨i, hi, rfl⟩ := List.mem_iff_getElem.mp hp'
  obtain ⟨j, hj, rfl⟩ := List.mem_iff_getElem.mp hq'
  have hlength := h _ hp
  have hapart := List.pairwise_iff_getElem.mp hl.apart
  obtain hij | rfl | hji := Nat.lt_trichotomy i j
  · have := hapart i j hi hj hij
    omega
  · exact absurd hlt (Nat.lt_irrefl _)
  · have := hapart j i hj hi hji
    omega

/-- `Get` returns what the items say. -/
theorem Layout.get_eq (hl : Layout f slots) (hnow : 0 ≤ now.toInt) :
    (get f key now).map Prod.fst =
      some ((TtlMap.lookup (slots.map entry) key now.toInt).getD []) := by
  rw [get, read, hl.head_eq (hash_lt key), read_of_chain (hl.chain_eq _), find?_bucket]
  rw [TtlMap.lookup, List.find?_map]
  have hfun : ((fun e : TtlMap.Entry Bytes Bytes => decide (e.key = key)) ∘ entry) =
      fun p : Nat × Item => decide (p.2.key = key) := rfl
  rw [hfun]
  cases slots.find? fun p => decide (p.2.key = key) with
  | none => rfl
  | some p =>
    obtain ⟨addr, item⟩ := p
    simp only [Option.map_some, Option.bind_some, entry, Int64.le_iff_toInt_le,
      Int64.lt_iff_toInt_lt, Int64.toInt_zero]
    by_cases hlt : now.toInt < item.expiresIn.toInt
    · rw [if_pos ⟨by omega, hlt⟩, if_pos hlt, Option.getD_some]
    · rw [if_neg (fun h => hlt h.2), if_neg hlt, Option.getD_none]

/-! ## Writing -/

/-- The split of the items along a split of a bucket. -/
theorem exists_split (h : Nat) {p : Nat × Item} (hsplit : bucket h slots = before ++ p :: after) :
    ∃ l r, slots = l ++ p :: r ∧ bucket h l = before ∧ bucket h r = after ∧ hash p.2.key = h := by
  obtain ⟨l, rest, rfl, hl, hrest⟩ := List.filter_eq_append_iff.mp hsplit
  obtain ⟨l', r, rfl, hl', hp, hr⟩ := List.filter_eq_cons_iff.mp hrest
  refine ⟨l ++ l', r, by simp, ?_, hr, by simpa using hp⟩
  have hnil : bucket h l' = [] := List.filter_eq_nil_iff.mpr hl'
  rw [bucket, List.filter_append]
  exact (congrArg₂ _ hl hnil).trans (List.append_nil _)

/-- A key that no item of its bucket has is no item's key. -/
theorem key_ne_of_bucket (h : ∀ p ∈ bucket (hash key) slots, p.2.key ≠ key) :
    ∀ e ∈ slots.map entry, e.key ≠ key := by
  intro e he heq
  obtain ⟨p, hp, rfl⟩ := List.mem_map.mp he
  have hkey : p.2.key = key := heq
  exact h p (by simp [bucket, hp, hkey]) hkey

/-- A bucket that is not empty does not begin at the address zero. -/
theorem Layout.headAddr_ne_zero (hl : Layout f slots) {h : Nat} (hne : bucket h slots ≠ []) :
    headAddr (bucket h slots) ≠ 0 := by
  obtain ⟨p, rest, hb⟩ := List.exists_cons_of_ne_nil hne
  have hp : p ∈ bucket h slots := by simp [hb]
  have := hl.behind p (List.mem_filter.mp hp).1
  have : 0 < 8 * buckets := by decide
  rw [hb]
  change p.1 ≠ 0
  omega

/-- `Write` goes along the bucket of the key, if there is something in it. -/
theorem Layout.write_eq (hl : Layout f slots) (hne : bucket (hash item.key) slots ≠ []) :
    write f item now =
      writeLoop item now f.size (fuel f) f (headAddr (bucket (hash item.key) slots)) := by
  rw [write, hl.head_eq_four (hash_lt _), if_pos (hl.headAddr_ne_zero hne)]

/-- A file in which an item has been put at the end is at least as long as that. -/
theorem length_le_size_writeItem (f : ByteStore) (addr : Nat) (item : Item) :
    item.length ≤ (writeItem f addr item).size := by
  have hheld : (writeItem f addr item).Holds addr item.encode :=
    ByteStore.holds_write (encode_ne_nil item)
  have hle := hheld.le_size
  rw [length_encode] at hle
  exact le_trans (Nat.le_add_left ..) hle

/-- Where `Write` stops at no item, the new one comes to the end. -/
theorem Layout.write_append (hl : Layout f slots)
    (hpass : ∀ p ∈ bucket (hash item.key) slots, stopsAt item now p.2 = false)
    (hnext : item.next = 0) (hcap : item.capcity ≤ item.length + 16) :
    ∃ g, write f item now = some g ∧ (g.size < 2 ^ 32 → ∃ slots', Layout g slots' ∧
      slots'.map entry = slots.map entry ++ [entry (0, item)]) := by
  have hcap' {g : ByteStore} {addr : Nat} (hsize : (writeItem g addr item).size < 2 ^ 32) :
      item.capcity < 2 ^ 64 := by
    have := (length_le_size_writeItem g addr item).trans_lt hsize
    omega
  obtain hb | ⟨before, ⟨last, xr⟩, hb⟩ := List.eq_nil_or_concat (bucket (hash item.key) slots)
  · -- The first item of its bucket.
    have hwrite : write f item now =
        some (writeItem (f.write (8 * hash item.key) (leBytes 4 f.size)) f.size item) := by
      rw [write, hl.head_eq_four (hash_lt _), hb, headAddr, if_neg (not_not.mpr rfl)]
    refine ⟨_, hwrite, fun hsize => ⟨_, hl.append_first hb hnext (hcap' hsize) rfl hsize, ?_⟩⟩
    rw [List.map_append]
    rfl
  · rw [List.concat_eq_append] at hb
    have hchain := hl.chain_eq (hash item.key)
    have hne : bucket (hash item.key) slots ≠ [] := by simp [hb]
    rw [hb] at hchain hpass
    have hwrite : write f item now =
        some (writeItem (f.write (last + 8) (leBytes 8 f.size)) f.size item) := by
      rw [hl.write_eq hne, hb]
      exact writeLoop_append hchain hpass
    refine ⟨_, hwrite, fun hsize => ?_⟩
    -- In the list of all items, the last one of the bucket lies between those of other buckets.
    obtain ⟨l, r, rfl, -, hr, hxr⟩ := exists_split _ hb
    have hlast : ∀ p ∈ r, hash p.2.key ≠ hash xr.key := by
      intro p hp heq
      have : p ∈ bucket (hash item.key) r := by simp [bucket, hp, heq, ← hxr]
      rw [hr] at this
      cases this
    refine ⟨_, hl.append_linked hlast hxr.symm hnext (hcap' hsize) rfl hsize, ?_⟩
    simp [entry]

/-- Where `Write` stops at an item whose slot has enough room, the new one comes into that slot. -/
theorem Layout.write_fill (hl : Layout f slots) {before after : List (Nat × Item)}
    (hsplit : bucket (hash item.key) slots = before ++ (slot, xr) :: after)
    (hpass : ∀ p ∈ before, stopsAt item now p.2 = false) (hstop : stopsAt item now xr)
    (hroom : item.capcity ≤ xr.capcity)
    (hfit : ∀ q ∈ slots, slot < q.1 → slot + item.length ≤ q.1) :
    ∃ g l r, write f item now = some g ∧ slots = l ++ (slot, xr) :: r ∧
      bucket (hash item.key) l = before ∧ bucket (hash item.key) r = after ∧
      (g.size < 2 ^ 32 → Layout g (l ++ (slot, xr.fill item) :: r)) := by
  have hchain := hl.chain_eq (hash item.key)
  rw [hsplit] at hchain
  have hwrite : write f item now = some (writeItem f slot (xr.fill item)) := by
    rw [hl.write_eq (by simp [hsplit]), hsplit]
    exact writeLoop_fill hchain hpass hstop hroom
  obtain ⟨l, r, rfl, hbl, hbr, hxr⟩ := exists_split _ hsplit
  refine ⟨_, l, r, hwrite, rfl, hbl, hbr, fun hsize => ?_⟩
  refine hl.fill hxr.symm rfl rfl (fun q hq => hfit q (by simp [hq]) ?_) hsize
  have := (List.pairwise_cons.mp (List.pairwise_append.mp hl.apart).2.1).1 q hq
  rw [Item.length] at this
  omega

/-! ## Runs -/

/-- The list of items follows the map in a call that keeps its slot. -/
theorem Layout.write_represents (hl : Layout f slots)
    (hrep : TtlMap.Represents (slots.map entry) m clock) (hclock : clock ≤ now.toInt)
    (hroom : HasRoom f item now) (hfit : EndsInTime f item now)
    (huncover : UncoversNothing f item now) (hnext : item.next = 0)
    (hcap : item.capcity ≤ item.length + 16) (hlife : 0 ≤ lifetime)
    (hexp : item.expiresIn.toInt = since + lifetime) :
    ∃ g, write f item now = some g ∧ (g.size < 2 ^ 32 → ∃ slots', Layout g slots' ∧
      TtlMap.Represents (slots'.map entry) (m.set item.key item.value since lifetime)
        now.toInt) := by
  have hitems := hl.items_eq (hash_lt item.key)
  cases hstop : stopped f item now with
  | nil =>
    have hpass : ∀ p ∈ bucket (hash item.key) slots, stopsAt item now p.2 = false := by
      intro p hp
      rw [stopped, hitems, List.dropWhile_eq_nil_iff] at hstop
      simpa using hstop p hp
    obtain ⟨g, hwrite, hlayout⟩ := hl.write_append hpass hnext hcap
    refine ⟨g, hwrite, fun hsize => ?_⟩
    obtain ⟨slots', hl', hmap⟩ := hlayout hsize
    refine ⟨slots', hl', ?_⟩
    rw [hmap, entry, hexp]
    refine hrep.append hclock hlife (key_ne_of_bucket fun p hp heq => ?_)
    simpa [stopsAt, heq] using hpass p hp
  | cons p after =>
    obtain ⟨slot, xr⟩ := p
    have hsplit : bucket (hash item.key) slots = passed f item now ++ (slot, xr) :: after := by
      rw [← hstop, passed, stopped, List.takeWhile_append_dropWhile, hitems]
    have hpass : ∀ p ∈ passed f item now, stopsAt item now p.2 = false := by
      intro p hp
      simpa using List.mem_takeWhile_imp hp
    have hstops : stopsAt item now xr = true := by
      have := List.head?_dropWhile_not (fun p => !stopsAt item now p.2) (items f (hash item.key))
      rw [← stopped, hstop] at this
      simpa using this
    have hmem : (slot, xr) ∈ (stopped f item now).head? := by simp [hstop]
    obtain ⟨g, l, r, hwrite, rfl, hbl, hbr, hlayout⟩ :=
      hl.write_fill hsplit hpass hstops (hroom _ hmem) fun q hq hlt => by
        refine hfit _ hmem _ (hash_lt q.2.key) q ?_ hlt
        rw [hl.items_eq (hash_lt _)]
        simp [bucket, hq]
    have hxr : hash xr.key = hash item.key := by
      have : (slot, xr) ∈ bucket (hash item.key) (l ++ (slot, xr) :: r) := by simp [hsplit]
      simpa using (List.mem_filter.mp this).2
    refine ⟨g, hwrite, fun hsize => ⟨_, hlayout hsize, ?_⟩⟩
    rw [List.map_append, List.map_cons] at hrep ⊢
    have hentry : entry (slot, xr.fill item) = ⟨item.key, item.value, since + lifetime⟩ := by
      rw [← hexp]
      rfl
    rw [hentry]
    refine hrep.replace hclock hlife (key_ne_of_bucket fun p hp heq => ?_) ?_
    · rw [hbl] at hp
      simpa [stopsAt, heq] using hpass p hp
    · obtain heq | hhid := huncover _ hmem
      · exact .inl heq
      by_cases hkey : xr.key = item.key
      · exact .inl hkey
      have hold : xr.expiresIn < now := by
        simp only [stopsAt, hkey, decide_false, Bool.false_or, Bool.and_eq_true,
          decide_eq_true_eq] at hstops
        exact hstops.2
      refine .inr ⟨(Int64.lt_iff_toInt_lt.mp hold).le, hhid.imp ?_ ?_⟩
      · rintro ⟨q, hq, hqkey⟩
        rw [← hbl] at hq
        exact ⟨entry q, List.mem_map_of_mem (List.mem_filter.mp hq).1, hqkey⟩
      · intro hdead e he
        -- The next item of that key stands in the same bucket.
        rw [List.find?_map] at he
        obtain ⟨q, hq, rfl⟩ := Option.map_eq_some_iff.mp he
        have hq' : (stopped f item now).tail.find? (·.2.key = xr.key) = some q := by
          rw [hstop, List.tail_cons, ← hbr, ← hxr, find?_bucket]
          exact hq
        exact Int64.le_iff_toInt_le.mp (hdead q hq')

/-- What holds after every call that keeps its slot. -/
def Cache.Inv (c : Cache) : Prop :=
  0 ≤ c.clock ∧ ∃ slots, Layout c.file slots ∧
    TtlMap.Represents (slots.map entry) c.entries c.clock.toInt

/-- A new file has no items. -/
theorem layout_fresh : Layout fresh [] where
  size_lt := by decide
  heads_le := le_rfl
  length_le := Nat.zero_le _
  held := by simp
  behind := by simp
  apart := .nil
  capcity_lt := by simp
  heads h hh := by
    have : headAddr (bucket h []) = 0 := rfl
    rw [this, leBytes_zero_right]
    exact ByteStore.holds_zeros (by omega)
  linked := trivial

theorem inv_init : system.init.Inv :=
  ⟨by decide, [], layout_fresh, TtlMap.represents_nil⟩

/-- The deadline of an item, as a number. -/
theorem toInt_deadline {call : SetCall} (hlife : 0 ≤ call.expiresIn) (hnow : 0 ≤ call.now)
    (hsum : call.now.toInt + call.expiresIn.toInt < 2 ^ 63) :
    (newItem call.key call.value call.expiresIn call.now).expiresIn.toInt =
      call.now.toInt + call.expiresIn.toInt := by
  rw [Int64.le_iff_toInt_le, Int64.toInt_zero] at hlife hnow
  rw [newItem, if_pos (by rwa [Int64.le_iff_toInt_le]), Int64.toInt_add]
  exact Int.bmod_eq_of_le (by omega) (by omega)

/-- The slots that `Set` asks for are not much longer than the items. -/
theorem capcity_newItem_le {key value : Bytes} {expiresIn now : Int64} :
    (newItem key value expiresIn now).capcity ≤ (newItem key value expiresIn now).length + 16 := by
  simp only [newItem, capacity, Item.length]
  omega

/-- A call that keeps its slot comes back, and follows the map if the file stays below 4 GiB. -/
theorem Cache.Inv.set {c : Cache} (hc : c.Inv) {call : SetCall} (hok : KeepsSlots c call)
    (hnow : c.clock ≤ call.now) (hlater : call.now ≤ call.later) :
    ∃ file,
      NativeFile.set c.file call.key call.value call.expiresIn call.now call.later = some file ∧
      (file.size < 2 ^ 32 → Cache.Inv
        { file
          clock := call.later
          entries := c.entries.set call.key call.value call.now.toInt call.expiresIn.toInt }) := by
  obtain ⟨hclock, slots, hl, hrep⟩ := hc
  obtain ⟨⟨hlife, hsum⟩, hroom, hfit, huncover⟩ := hok
  have hnow0 : 0 ≤ call.now := Int64.le_trans hclock hnow
  have hclock' : c.clock.toInt ≤ call.later.toInt :=
    Int64.le_iff_toInt_le.mp (Int64.le_trans hnow hlater)
  have hlife' : 0 ≤ call.expiresIn.toInt := Int64.le_iff_toInt_le.mp hlife
  obtain ⟨file, hwrite, hfile⟩ := hl.write_represents hrep hclock' hroom hfit huncover rfl
    capcity_newItem_le hlife' (toInt_deadline hlife hnow0 hsum)
  refine ⟨file, ?_, fun hsize => ⟨Int64.le_trans hnow0 hlater, hfile hsize⟩⟩
  rw [NativeFile.set, if_neg (by omega), hwrite]

/-- The invariant holds as long as all calls keep their slots. -/
theorem inv_of_reachable {c : Cache} (h : (system.restrict KeepsSlots).Reachable c) : c.Inv := by
  refine TransitionSystem.Reachable.invariant_restrict inv_init (fun c call c' hc hok hnext => ?_) h
  rw [system] at hnext
  by_cases hclock : c.clock ≤ call.now ∧ call.now ≤ call.later
  · simp only [if_pos hclock] at hnext
    obtain ⟨file, hset, hinv⟩ := hc.set hok hclock.1 hclock.2
    rw [hset] at hnext
    by_cases hsize : file.size < 2 ^ 32
    · simp only [Option.bind_eq_bind, Option.bind_some, if_pos hsize] at hnext
      cases hnext
      exact hinv hsize
    · simp only [Option.bind_eq_bind, Option.bind_some, if_neg hsize] at hnext
      cases hnext
  · simp [hclock] at hnext

/-- While every call keeps its slot, the cache is a map with deadlines. -/
theorem isTtlMap_keepsSlots {c : Cache} (hreach : (system.restrict KeepsSlots).Reachable c) :
    (∀ key now, c.clock ≤ now →
      (get c.file key now).map Prod.fst = some ((c.entries.get key now.toInt).getD [])) ∧
    ∀ call, KeepsSlots c call → c.clock ≤ call.now → call.now ≤ call.later →
      (set c.file call.key call.value call.expiresIn call.now call.later).isSome := by
  have hc := inv_of_reachable hreach
  refine ⟨fun key now hnow => ?_, fun call hok hnow hlater => ?_⟩
  · obtain ⟨hclock, slots, hl, hrep⟩ := hc
    have hnow0 : 0 ≤ now.toInt := Int64.le_iff_toInt_le.mp (Int64.le_trans hclock hnow)
    rw [hl.get_eq hnow0, hrep key now.toInt (Int64.le_iff_toInt_le.mp hnow)]
  · obtain ⟨file, hset, -⟩ := hc.set hok hnow hlater
    rw [hset]
    rfl

/-- The second of three calls sets another key, and the last sets the first key again, in its slot.
Both values are returned before their deadlines, and not behind them. -/
theorem isTtlMap_keepsSlots_overwrite :
    ∃ c₂ c : Cache,
      (system.restrict KeepsSlots).exec system.init
        [⟨bytes "k", bytes "v", 5, 10, 10⟩, ⟨bytes "a", bytes "1", 2, 11, 11⟩] = some c₂ ∧
      (system.restrict KeepsSlots).next c₂ ⟨bytes "k", bytes "w", 5, 12, 12⟩ = some c ∧
      (get c.file (bytes "k") 14).map Prod.fst = some (bytes "w") ∧
      (get c.file (bytes "a") 12).map Prod.fst = some (bytes "1") ∧
      (get c.file (bytes "a") 14).map Prod.fst = some [] := by
  let call : SetCall := ⟨bytes "k", bytes "w", 5, 12, 12⟩
  let item := newItem call.key call.value call.expiresIn call.now
  -- What the third call finds, and what the map has behind it.
  have hrun : (((system.restrict KeepsSlots).exec system.init
      [⟨bytes "k", bytes "v", 5, 10, 10⟩, ⟨bytes "a", bytes "1", 2, 11, 11⟩]).any fun c₂ =>
        HasRoom c₂.file item 12 ∧ UncoversNothing c₂.file item 12 ∧
          (stopped c₂.file item 12).head?.map (·.2.length) = some 42 ∧
          (system.next c₂ call).map (fun c => (c.clock, c.entries.get (bytes "k") 14,
            c.entries.get (bytes "a") 12, c.entries.get (bytes "a") 14)) =
              some (12, some (bytes "w"), some (bytes "1"), none)) = true := by
    decide +kernel
  obtain ⟨c₂, hexec, hc₂⟩ := (Option.any_eq_true _ _).mp hrun
  obtain ⟨hroom, huncovers, hlength, hthird⟩ := of_decide_eq_true hc₂
  obtain ⟨c, hnext, hc⟩ := Option.map_eq_some_iff.mp hthird
  simp only [Prod.mk.injEq] at hc
  obtain ⟨hclock, hk, ha, hdead⟩ := hc
  have hreach := TransitionSystem.reachable_of_exec hexec
  obtain ⟨-, slots, hl, -⟩ := inv_of_reachable hreach
  have hends : EndsInTime c₂.file item 12 := by
    refine hl.endsInTime_of_length_le fun p hp => ?_
    rw [Option.mem_def.mp hp] at hlength
    exact (Option.some.inj hlength).ge
  have hok : KeepsSlots c₂ call := ⟨by decide, hroom, hends, huncovers⟩
  have hstep := TransitionSystem.restrict_next.mpr ⟨hok, hnext⟩
  have hget := (isTtlMap_keepsSlots (hreach.step call hstep)).1
  have h12 : c.clock ≤ 12 := by
    rw [hclock]
    decide
  have h14 : c.clock ≤ 14 := by
    rw [hclock]
    decide
  refine ⟨c₂, c, hexec, hstep, ?_, ?_, ?_⟩
  · rw [hget (bytes "k") 14 h14, show Int64.toInt 14 = 14 by decide, hk]
    rfl
  · rw [hget (bytes "a") 12 h12, show Int64.toInt 12 = 12 by decide, ha]
    rfl
  · rw [hget (bytes "a") 14 h14, show Int64.toInt 14 = 14 by decide, hdead]
    rfl

/-- A value that is set without a deadline is never returned. -/
theorem not_isTtlMap : ¬ IsTtlMap fun _ _ => True := by
  intro h
  have hsize : (set fresh (bytes "k") (bytes "v") (-1) 10 10).map ByteStore.size =
      some (8 * buckets + 42) := by decide +kernel
  have hget : ((set fresh (bytes "k") (bytes "v") (-1) 10 10).bind fun file =>
      (get file (bytes "k") 10).map Prod.fst) = some [] := by decide +kernel
  obtain ⟨file, hset, hfile⟩ := Option.map_eq_some_iff.mp hsize
  rw [hset, Option.bind_some] at hget
  let c : Cache := ⟨file, 10, TtlMap.empty.set (bytes "k") (bytes "v") 10 (-1)⟩
  have hnext : (system.restrict fun _ _ => True).next system.init
      ⟨bytes "k", bytes "v", -1, 10, 10⟩ = some c := by
    have hclock : (0 : Int64) ≤ 10 ∧ (10 : Int64) ≤ 10 := by decide
    have hlt : file.size < 2 ^ 32 := by
      rw [hfile]
      decide
    refine TransitionSystem.restrict_next.mpr ⟨trivial, ?_⟩
    simp only [system, if_pos hclock, hset, Option.bind_eq_bind, Option.bind_some, if_pos hlt]
    rfl
  have hreach : (system.restrict fun _ _ => True).Reachable c :=
    TransitionSystem.Run.step _ .refl hnext
  have hvalue := (h c hreach).1 (bytes "k") 10 (show (10 : Int64) ≤ 10 by decide)
  have hentry : c.entries.get (bytes "k") 10 = some (bytes "v") := rfl
  rw [hget, show Int64.toInt 10 = 10 by decide, hentry] at hvalue
  exact absurd hvalue (by decide)

end NativeFile

end MosqCluster
