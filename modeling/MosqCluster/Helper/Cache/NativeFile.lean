import MosqCluster.Foundation.ByteStore
import MosqCluster.Helper.XString

/-!
# The file cache

`helper/cache/native_file.cpp`. A `NativeFile` is a hash table in a file. The file begins with one
chain head per hash value; behind the heads stand the items, each with the address of the next one
of its chain. `Set` walks the chain of the key and writes in place, into the slot of an expired
item, or at the end of the file.

The two handles are one byte store: what one writes, the other reads. `none` is a call that does
not come back with a defined result: a chain that never ends, an item that the file ends in before
its numbers, a string longer than a string can be, or a deadline that overflows. That an address is
too large for `fseek` counts as the second.

## Main definitions

* `NativeFile.Item`, with `writeItem` and `readItem`;
* `NativeFile.set` and `NativeFile.get`, with the loops of `Write` and `Read`;
* `NativeFile.chain`: the items that lie behind a chain head.

## Main results

* `read_of_chain`: `Read` finds the first item of the chain that has the key;
* `writeLoop_fill` and `writeLoop_append`: what the loop of `Write` does to a chain.
-/

namespace MosqCluster

namespace NativeFile

/-- `NativeFile::Item`. -/
structure Item where
  capcity : Nat
  next : Nat
  expiresIn : Int64
  key : Bytes
  value : Bytes
  deriving DecidableEq, Repr

/-- The number of chain heads. -/
def buckets : Nat := 0x10000

/-- `Hash`: a `char` is signed. -/
def hash (key : Bytes) : Nat :=
  (key.foldl (fun (h : UInt64) b => h * 131 + b.toInt8.toInt64.toUInt64) 0 &&& 0xffff).toNat

/-- There is a chain head for every hash value. -/
theorem hash_lt (key : Bytes) : hash key < buckets := by
  rw [hash, UInt64.toNat_and]
  exact Nat.lt_succ_of_le Nat.and_le_right

/-! ## Items in the file -/

/-- What `WriteItem` writes. -/
def Item.encode (item : Item) : Bytes :=
  leBytes 8 item.capcity ++ leBytes 8 item.next ++ leBytes 8 item.expiresIn.toUInt64.toNat ++
    (leBytes 8 item.key.length ++ item.key ++ (leBytes 8 item.value.length ++ item.value))

/-- How many bytes an item takes. -/
def Item.length (item : Item) : Nat := 40 + item.key.length + item.value.length

@[simp]
theorem length_encode (item : Item) : item.encode.length = item.length := by
  simp only [Item.encode, Item.length, List.length_append, length_leBytes]
  omega

/-- `NativeFile::WriteItem`. -/
def writeItem (f : ByteStore) (addr : Nat) (item : Item) : ByteStore := f.write addr item.encode

/-- `len` bytes into a string of that length, whose bytes are zero before. -/
def readString (f : ByteStore) (off len : Nat) : Bytes :=
  let bs := f.read off len
  bs ++ List.replicate (len - bs.length) 0

/-- `NativeFile::ReadItem`, into an item that is not initialised. Where the file ends within a
length, its missing digits are zero. -/
def readItem (f : ByteStore) (addr : Nat) : Option Item :=
  if f.size < addr + 24 then none
  else
    let klen := leNat (f.read (addr + 24) 8)
    let vlen := leNat (f.read (addr + 32 + klen) 8)
    if 2 ^ 63 ≤ klen ∨ 2 ^ 63 ≤ vlen then none
    else
      some
        { capcity := leNat (f.read addr 8)
          next := leNat (f.read (addr + 8) 8)
          expiresIn := (UInt64.ofNat (leNat (f.read (addr + 16) 8))).toInt64
          key := readString f (addr + 32) klen
          value := readString f (addr + 40 + klen) vlen }

/-! ## Reading -/

/-- The loop of `NativeFile::Read`. -/
def readLoop (f : ByteStore) (key : Bytes) : Nat → Nat → Option (Option Item)
  | 0, _ => none
  | fuel + 1, addr =>
    if addr = 0 then some none
    else do
      let xr ← readItem f addr
      if key = xr.key then some (some xr) else readLoop f key fuel xr.next

/-- How often a loop may turn before it must have come to an address a second time. -/
def fuel (f : ByteStore) : Nat := f.size + 1

/-- `NativeFile::Read`: the item it fills in where it returns true. -/
def read (f : ByteStore) (key : Bytes) : Option (Option Item) :=
  readLoop f key (fuel f) (leNat (f.read (8 * hash key) 8))

/-- `NativeFile::Get`: what it returns, and what it assigns to `expires_in`. -/
def get (f : ByteStore) (key : Bytes) (now : Int64) : Option (Bytes × Option Int64) :=
  (read f key).map fun
    | some item =>
      if 0 ≤ item.expiresIn ∧ now < item.expiresIn then (item.value, some item.expiresIn)
      else ([], none)
    | none => ([], none)

/-! ## Writing -/

/-- An item whose slot is given to `item`. -/
def Item.fill (xr item : Item) : Item :=
  { xr with expiresIn := item.expiresIn, key := item.key, value := item.value }

/-- The loop of `NativeFile::Write`, in a file that ended at `eof` before. -/
def writeLoop (item : Item) (now : Int64) (eof : Nat) : Nat → ByteStore → Nat → Option ByteStore
  | 0, _, _ => none
  | fuel + 1, f, addr =>
    if addr = 0 then some f
    else do
      let xr ← readItem f addr
      if xr.key = item.key then
        if xr.capcity < item.capcity then
          -- `addr` is already the next address when the emptied item is written.
          let f := writeItem f xr.next { xr with key := [], value := [], expiresIn := 0 }
          writeLoop item now eof fuel f xr.next
        else some (writeItem f addr (xr.fill item))
      else if item.capcity ≤ xr.capcity ∧ xr.expiresIn < now then
        some (writeItem f addr (xr.fill item))
      else if xr.next = 0 then some (writeItem (f.write (addr + 8) (leBytes 8 eof)) eof item)
      else writeLoop item now eof fuel f xr.next

/-- `NativeFile::Write`, at the time `now`. Of the chain head it reads and writes four bytes. -/
def write (f : ByteStore) (item : Item) (now : Int64) : Option ByteStore :=
  let addr := leNat (f.read (8 * hash item.key) 4)
  if addr ≠ 0 then writeLoop item now f.size (fuel f) f addr
  else some (writeItem (f.write (8 * hash item.key) (leBytes 4 f.size)) f.size item)

/-- The file that `NativeFile::Open` makes. -/
def fresh : ByteStore := .zeros (8 * buckets)

/-- The capacity that `NativeFile::Set` gives to an item. The sizes of strings in memory do not let
it overflow. -/
def capacity (key value : Bytes) : Nat :=
  let capcity := 8 * 4 + 8 + key.length + value.length
  (capcity / 16 + 1) * 16

/-- The item that `NativeFile::Set` makes at the time `now`. -/
def newItem (key value : Bytes) (expiresIn now : Int64) : Item :=
  { capcity := capacity key value
    next := 0
    expiresIn := if 0 ≤ expiresIn then now + expiresIn else -1
    key
    value }

/-- `NativeFile::Set`, which reads the clock at `now`; `Write` reads it again, at `later`. -/
def set (f : ByteStore) (key value : Bytes) (expiresIn now later : Int64) : Option ByteStore :=
  -- The sum of two times overflows from `2 ^ 63` on.
  if 0 ≤ expiresIn ∧ 2 ^ 63 ≤ now.toInt + expiresIn.toInt then none
  else write f (newItem key value expiresIn now) later

/-! ## Chains -/

/-- The items from `addr` on, with their addresses. -/
def chain (f : ByteStore) : Nat → Nat → Option (List (Nat × Item))
  | 0, _ => none
  | fuel + 1, addr =>
    if addr = 0 then some []
    else do
      let xr ← readItem f addr
      let rest ← chain f fuel xr.next
      some ((addr, xr) :: rest)

/-- Where the loop of `Write` leaves a chain, and where it empties an item. -/
def stopsAt (item : Item) (now : Int64) (xr : Item) : Bool :=
  xr.key = item.key || (item.capcity ≤ xr.capcity && xr.expiresIn < now)

variable {f : ByteStore} {item xr : Item} {now : Int64} {key : Bytes} {n addr eof slot last : Nat}
  {before after chained : List (Nat × Item)}

/-- A chain ends at once or goes on with an item. -/
theorem chain_eq_some (h : chain f (n + 1) addr = some chained) :
    addr = 0 ∧ chained = [] ∨
      addr ≠ 0 ∧ ∃ xr rest, readItem f addr = some xr ∧ chain f n xr.next = some rest ∧
        chained = (addr, xr) :: rest := by
  rw [chain] at h
  by_cases h0 : addr = 0
  · rw [if_pos h0] at h
    exact .inl ⟨h0, by simpa using h.symm⟩
  · rw [if_neg h0] at h
    obtain ⟨xr, hxr, h⟩ := Option.bind_eq_some_iff.mp h
    obtain ⟨rest, hrest, h⟩ := Option.bind_eq_some_iff.mp h
    exact .inr ⟨h0, xr, rest, hxr, hrest, by simpa using h.symm⟩

/-- Behind the address zero there is nothing. -/
theorem chain_eq_nil (h : chain f n addr = some []) : addr = 0 := by
  cases n with
  | zero => cases h
  | succ n =>
    obtain ⟨h0, -⟩ | ⟨-, xr, rest, -, -, hcons⟩ := chain_eq_some h
    · exact h0
    · cases hcons

/-- The loop of `Read` finds the first item of the chain that has the key. -/
theorem read_of_chain (h : chain f n addr = some chained) :
    readLoop f key n addr = some ((chained.find? (·.2.key = key)).map Prod.snd) := by
  induction n generalizing addr chained with
  | zero => cases h
  | succ n ih =>
    rw [readLoop]
    obtain ⟨rfl, rfl⟩ | ⟨h0, xr, rest, hxr, hrest, rfl⟩ := chain_eq_some h
    · simp
    · by_cases hkey : key = xr.key
      · simp [h0, hxr, hkey]
      · have hkey' : xr.key ≠ key := fun h => hkey h.symm
        simp [h0, hxr, hkey, hkey', ih hrest]

/-- The loop of `Write` fills the slot of the first item that it stops at, where that has enough
room. -/
theorem writeLoop_fill (h : chain f n addr = some (before ++ (slot, xr) :: after))
    (hbefore : ∀ p ∈ before, stopsAt item now p.2 = false) (hstop : stopsAt item now xr)
    (hroom : item.capcity ≤ xr.capcity) :
    writeLoop item now eof n f addr = some (writeItem f slot (xr.fill item)) := by
  induction n generalizing addr before with
  | zero => cases h
  | succ n ih =>
    rw [writeLoop]
    obtain ⟨-, hnil⟩ | ⟨h0, yr, rest, hyr, hrest, hcons⟩ := chain_eq_some h
    · simp at hnil
    rw [if_neg h0, hyr]
    cases before with
    | nil =>
      -- The loop is at the slot: the key is the same, or the item has expired and there is room.
      obtain ⟨⟨rfl, rfl⟩, -⟩ : (slot = addr ∧ xr = yr) ∧ after = rest := by simpa using hcons
      by_cases hkey : xr.key = item.key
      · simp [hkey, hroom]
      · have hold : xr.expiresIn < now := by simpa [stopsAt, hkey, hroom] using hstop
        simp [hkey, hroom, hold]
    | cons p before =>
      obtain ⟨rfl, rfl⟩ : p = (addr, yr) ∧ before ++ (slot, xr) :: after = rest := by
        simpa using hcons
      -- The loop passes the item and follows its link.
      have hpass := hbefore (addr, yr) (by simp)
      simp only [stopsAt, Bool.or_eq_false_iff, Bool.and_eq_false_iff, decide_eq_false_iff_not]
        at hpass
      have hskip : ¬ (item.capcity ≤ yr.capcity ∧ yr.expiresIn < now) := by tauto
      have hnext : yr.next ≠ 0 := by
        intro h0
        rw [h0] at hrest
        cases n <;> simp [chain] at hrest
      simp only [Option.bind_eq_bind, Option.bind_some, if_neg hpass.1, if_neg hskip, if_neg hnext]
      exact ih hrest fun q hq => hbefore q (by simp [hq])

/-- Where the loop of `Write` stops at no item, it puts the new one behind the last. -/
theorem writeLoop_append (h : chain f n addr = some (before ++ [(last, xr)]))
    (hpass : ∀ p ∈ before ++ [(last, xr)], stopsAt item now p.2 = false) :
    writeLoop item now eof n f addr =
      some (writeItem (f.write (last + 8) (leBytes 8 eof)) eof item) := by
  induction n generalizing addr before with
  | zero => cases h
  | succ n ih =>
    rw [writeLoop]
    obtain ⟨-, hnil⟩ | ⟨h0, yr, rest, hyr, hrest, hcons⟩ := chain_eq_some h
    · simp at hnil
    have hpass' := hpass (addr, yr) (by rw [hcons]; simp)
    simp only [stopsAt, Bool.or_eq_false_iff, Bool.and_eq_false_iff, decide_eq_false_iff_not]
      at hpass'
    have hskip : ¬ (item.capcity ≤ yr.capcity ∧ yr.expiresIn < now) := by tauto
    rw [if_neg h0, hyr]
    simp only [Option.bind_eq_bind, Option.bind_some, if_neg hpass'.1, if_neg hskip]
    cases before with
    | nil =>
      -- The item is the last one, so that its link is zero.
      obtain ⟨⟨rfl, rfl⟩, rfl⟩ : (last = addr ∧ xr = yr) ∧ [] = rest := by simpa using hcons
      rw [if_pos (chain_eq_nil hrest)]
    | cons p before =>
      obtain ⟨rfl, rfl⟩ : p = (addr, yr) ∧ before ++ [(last, xr)] = rest := by simpa using hcons
      have hnext : yr.next ≠ 0 := by
        intro h0
        rw [h0] at hrest
        cases n <;> simp [chain] at hrest
      rw [if_neg hnext]
      exact ih hrest fun q hq => hpass q (List.mem_cons_of_mem _ hq)

end NativeFile

end MosqCluster
