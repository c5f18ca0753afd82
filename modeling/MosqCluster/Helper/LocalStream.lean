import MosqCluster.Foundation.ByteStore
import MosqCluster.Helper.XString

/-!
# Local streams

`helper/local_stream.h`: an `OLocalStream` writes integers and byte strings one behind the other
into a buffer from `malloc`, a string behind its length; an `ILocalStream` should read them back.
Numbers are stored with the least significant byte first. `none` is an access outside of the
buffer. The size that an `ILocalStream` is made with is left out, since nothing reads it.

The template `operator>>` assigns the wrong way round: `*cur = value` stores the low byte of the
variable in the buffer, and the variable keeps what it had. The length of a string is read in this
way into a variable that holds zero, so that every string is read as the empty one.

## Main definitions

* `OLocalStream.putAll` and `ILocalStream.getAll`: a sequence of values, written and read;
* `RoundTripsStream`: the same values are read back, and the buffer is as it was.

## Main results

* `roundTripsStream_iff`: this is so where the variables have the values already, and the strings
  are empty.
-/

namespace MosqCluster

namespace LocalStream

/-- The integer types, by their size. -/
inductive Width
  | one
  | two
  | four
  | eight
  deriving DecidableEq, Repr

/-- `sizeof`. -/
def Width.size : Width → Nat
  | one => 1
  | two => 2
  | four => 4
  | eight => 8

@[simp]
theorem Width.size_four : Width.four.size = 4 := rfl

theorem Width.size_pos (w : Width) : 0 < w.size := by cases w <;> decide

/-- A value of a stream, or a variable that one is read into. -/
inductive Value
  | int (w : Width) (n : BitVec (8 * w.size))
  | string (s : Bytes)
  deriving DecidableEq

/-- A variable has a value before it is read: the integer, or, for a string, the empty one. -/
def Value.Has : Value → Value → Prop
  | dest, .int w n => dest = .int w n
  | .string _, .string s => s = []
  | .int .., .string _ => False

/-- The first byte of a number. -/
theorem exists_leBytes_eq_cons {w : Nat} (hw : 0 < w) (n : Nat) :
    ∃ rest, leBytes w n = [UInt8.ofNat n] ++ rest := by
  obtain ⟨k, rfl⟩ := Nat.exists_eq_succ_of_ne_zero hw.ne'
  exact ⟨leBytes k (n / 256), by rw [leBytes, List.singleton_append]⟩

/-- What is written for a value. -/
def Value.encode : Value → Bytes
  | .int w n => leBytes w.size n.toNat
  | .string s => leBytes 4 s.length ++ s

/-- What is written for a sequence. -/
def encodeAll (values : List Value) : Bytes := values.flatMap Value.encode

end LocalStream

open LocalStream

/-! ## Writing -/

/-- `OLocalStream`. -/
structure OLocalStream where
  buffer : ByteStore
  size : Nat

namespace OLocalStream

/-- `OLocalStream::OLocalStream`, for what `malloc` returns. -/
def new (buffer : ByteStore) : OLocalStream := ⟨buffer, 0⟩

/-- Bytes behind what has been written. -/
def store (o : OLocalStream) (bs : Bytes) : Option OLocalStream :=
  if o.size + bs.length ≤ o.buffer.size then some ⟨o.buffer.write o.size bs, o.size + bs.length⟩
  else none

/-- `operator<<`. The length of a string becomes a `size_type`. -/
def put (o : OLocalStream) : Value → Option OLocalStream
  | .int w n => o.store (leBytes w.size n.toNat)
  | .string s =>
    let size := s.length % 2 ^ 32
    (o.store (leBytes 4 size)).bind fun o => o.store (s.take size)

/-- A sequence of values. -/
def putAll (o : OLocalStream) : List Value → Option OLocalStream
  | [] => some o
  | value :: values => (o.put value).bind fun o => o.putAll values

variable {o o' : OLocalStream} {pre : Bytes}

/-- What has been written stays, and the new bytes are behind it. -/
theorem store_eq_some (bs : Bytes) (hpre : o.buffer.Holds 0 pre) (hlen : pre.length = o.size)
    (hfit : o.size + bs.length ≤ o.buffer.size) :
    ∃ o', o.store bs = some o' ∧ o'.buffer.Holds 0 (pre ++ bs) ∧
      o'.size = (pre ++ bs).length ∧ o'.buffer.size = o.buffer.size := by
  refine ⟨⟨o.buffer.write o.size bs, o.size + bs.length⟩, if_pos hfit, ?_, by simp [hlen], ?_⟩
  · apply ByteStore.holds_append.mpr
    by_cases hbs : bs = []
    · subst hbs
      refine ⟨by simpa [ByteStore.write] using hpre, ?_, by simp⟩
      simpa [ByteStore.write, hlen] using hfit
    · refine ⟨hpre.write_of_disjoint (.inl (by omega)), ?_⟩
      rw [Nat.zero_add, hlen]
      exact ByteStore.holds_write hbs
  · by_cases hbs : bs = []
    · rw [hbs, ByteStore.write, if_pos rfl]
    · rw [ByteStore.size_write hbs]
      exact max_eq_left hfit

/-- A value is written as its encoding. -/
theorem put_eq_some (value : Value) (hpre : o.buffer.Holds 0 pre) (hlen : pre.length = o.size)
    (hfit : o.size + value.encode.length ≤ o.buffer.size) (hsize : o.buffer.size < 2 ^ 32) :
    ∃ o', o.put value = some o' ∧ o'.buffer.Holds 0 (pre ++ value.encode) ∧
      o'.size = (pre ++ value.encode).length ∧ o'.buffer.size = o.buffer.size := by
  cases value with
  | int w n => exact store_eq_some _ hpre hlen hfit
  | string s =>
    simp only [Value.encode, List.length_append, length_leBytes] at hfit
    have hmod : s.length % 2 ^ 32 = s.length := Nat.mod_eq_of_lt (by omega)
    obtain ⟨o₁, ho₁, hheld₁, hlen₁, hsize₁⟩ :=
      store_eq_some (leBytes 4 s.length) hpre hlen (by rw [length_leBytes]; omega)
    rw [List.length_append, length_leBytes] at hlen₁
    obtain ⟨o₂, ho₂, hheld₂, hlen₂, hsize₂⟩ :=
      store_eq_some s hheld₁ (by simp [hlen₁]) (by omega)
    rw [List.append_assoc] at hheld₂ hlen₂
    refine ⟨o₂, ?_, hheld₂, hlen₂, by rw [hsize₂, hsize₁]⟩
    simp only [put, hmod, ho₁, Option.bind_some, List.take_length, ho₂]

/-- A sequence is written as its encoding. -/
theorem putAll_eq_some {values : List Value} (pre : Bytes) (hpre : o.buffer.Holds 0 pre)
    (hlen : pre.length = o.size) (hfit : o.size + (encodeAll values).length ≤ o.buffer.size)
    (hsize : o.buffer.size < 2 ^ 32) :
    ∃ o', o.putAll values = some o' ∧ o'.buffer.Holds 0 (pre ++ encodeAll values) ∧
      o'.size = (pre ++ encodeAll values).length := by
  induction values generalizing o pre with
  | nil => exact ⟨o, by simp [putAll], by simpa [encodeAll] using hpre, by simp [encodeAll, hlen]⟩
  | cons value values ih =>
    have hcons : encodeAll (value :: values) = value.encode ++ encodeAll values := by
      simp [encodeAll]
    rw [hcons, List.length_append] at hfit
    obtain ⟨o₁, ho₁, hheld₁, hlen₁, hsize₁⟩ :=
      put_eq_some value hpre hlen (by omega) hsize
    obtain ⟨o₂, ho₂, hheld₂, hlen₂⟩ := ih _ hheld₁ hlen₁.symm
      (by rw [hlen₁, List.length_append, hlen, hsize₁]; omega) (by rwa [hsize₁])
    rw [List.append_assoc, ← hcons] at hheld₂ hlen₂
    exact ⟨o₂, by rw [putAll, ho₁, Option.bind_some, ho₂], hheld₂, hlen₂⟩

end OLocalStream

/-! ## Reading -/

/-- `ILocalStream`. -/
structure ILocalStream where
  buffer : ByteStore
  offset : Nat

namespace ILocalStream

/-- `ILocalStream::ILocalStream`. -/
def new (buffer : ByteStore) : ILocalStream := ⟨buffer, 0⟩

/-- `operator>>(_Type&)`, for a variable that holds `n`: its low byte goes to the buffer. -/
def getInt (i : ILocalStream) (w : Width) (n : BitVec (8 * w.size)) : Option ILocalStream :=
  if i.offset < i.buffer.size then
    some ⟨i.buffer.write i.offset [.ofNat n.toNat], i.offset + w.size⟩
  else none

/-- `operator>>`: the stream, and what the variable has afterwards. -/
def get (i : ILocalStream) : Value → Option (ILocalStream × Value)
  | .int w n => (i.getInt w n).map fun i => (i, .int w n)
  | .string _ =>
    -- `size` is zero before and after
    (i.getInt .four 0).map fun i => (i, .string (i.buffer.read i.offset 0))

/-- A sequence of variables. -/
def getAll (i : ILocalStream) : List Value → Option (ILocalStream × List Value)
  | [] => some (i, [])
  | dest :: dests =>
    (i.get dest).bind fun r => (r.1.getAll dests).map fun rs => (rs.1, r.2 :: rs.2)

variable {i i' : ILocalStream}

/-- What a variable has after a read: an integer what it had, a string nothing. -/
theorem snd_of_get {dest value : Value} (h : i.get dest = some (i', value)) : dest.Has value := by
  cases dest with
  | int w n =>
    simp only [get, Option.map_eq_some_iff, Prod.mk.injEq] at h
    obtain ⟨-, -, -, rfl⟩ := h
    exact rfl
  | string s =>
    simp only [get, Option.map_eq_some_iff, Prod.mk.injEq] at h
    obtain ⟨-, -, -, rfl⟩ := h
    simp [Value.Has, ByteStore.read]

/-- So are the values of a sequence in the variables before. -/
theorem forall₂_has_of_getAll {dests values : List Value} (h : i.getAll dests = some (i', values)) :
    List.Forall₂ Value.Has dests values := by
  induction dests generalizing i i' values with
  | nil =>
    simp only [getAll, Option.some.injEq, Prod.mk.injEq] at h
    rw [← h.2]
    exact .nil
  | cons dest dests ih =>
    simp only [getAll, Option.bind_eq_some_iff, Option.map_eq_some_iff, Prod.mk.injEq] at h
    obtain ⟨⟨i₁, value⟩, hget, ⟨i₂, rest⟩, hrest, -, rfl⟩ := h
    exact .cons (snd_of_get hget) (ih hrest)

/-- The number that the buffer has already is written over itself. -/
theorem getInt_eq_some {w : Width} {n : BitVec (8 * w.size)} {pre post : Bytes}
    (hheld : i.buffer.Holds 0 (pre ++ leBytes w.size n.toNat ++ post))
    (hoff : i.offset = pre.length) :
    ∃ i', i.getInt w n = some i' ∧ i'.offset = (pre ++ leBytes w.size n.toNat).length ∧
      i'.buffer.Holds 0 (pre ++ leBytes w.size n.toNat ++ post) := by
  have hle := hheld.le_size
  simp only [List.length_append, length_leBytes] at hle
  have hpos := w.size_pos
  refine ⟨_, if_pos (by omega), by simp [hoff], ?_⟩
  -- the byte written is the first one of the number
  obtain ⟨rest, hrest⟩ := exists_leBytes_eq_cons hpos n.toNat
  rw [hrest, ← List.append_assoc, List.append_assoc] at hheld ⊢
  have hwrite : (i.buffer.write (0 + pre.length) [UInt8.ofNat n.toNat]).Holds 0 _ :=
    hheld.write_part rfl (by simp)
  simpa [hoff] using hwrite

/-- Variables that have the values leave the buffer as it is. -/
theorem getAll_eq_some {dests values : List Value} (pre post : Bytes)
    (hhas : List.Forall₂ Value.Has dests values)
    (hheld : i.buffer.Holds 0 (pre ++ encodeAll values ++ post)) (hoff : i.offset = pre.length) :
    ∃ i', i.getAll dests = some (i', values) ∧
      i'.buffer.Holds 0 (pre ++ encodeAll values ++ post) := by
  induction hhas generalizing i pre with
  | nil => exact ⟨i, by rw [getAll], hheld⟩
  | @cons dest value dests values hd _ ih =>
    have hcons : encodeAll (value :: values) = value.encode ++ encodeAll values := by
      simp [encodeAll]
    rw [hcons, ← List.append_assoc, List.append_assoc] at hheld ⊢
    -- The first value.
    have hstep : ∃ i', i.get dest = some (i', value) ∧
        i'.offset = (pre ++ value.encode).length ∧
        i'.buffer.Holds 0 (pre ++ value.encode ++ (encodeAll values ++ post)) := by
      cases value with
      | int w n =>
        obtain rfl : dest = .int w n := by cases dest <;> exact hd
        obtain ⟨i', hi', hoff', hheld'⟩ := getInt_eq_some hheld hoff
        exact ⟨i', by rw [get, hi', Option.map_some], hoff', hheld'⟩
      | string s =>
        cases dest with
        | int w n => exact hd.elim
        | string t =>
          -- A string is empty, and only its length is there.
          obtain rfl : s = [] := hd
          obtain ⟨i', hi', hoff', hheld'⟩ :=
            getInt_eq_some (w := .four) (n := 0) (by simpa [Value.encode] using hheld) hoff
          refine ⟨i', ?_, by simpa [Value.encode] using hoff', by simpa [Value.encode] using hheld'⟩
          rw [get, hi', Option.map_some]
          simp [ByteStore.read]
    -- The values behind it.
    obtain ⟨i₁, hi₁, hoff₁, hheld₁⟩ := hstep
    rw [← List.append_assoc] at hheld₁ ⊢
    obtain ⟨i₂, hi₂, hheld₂⟩ := ih _ hheld₁ hoff₁
    exact ⟨i₂, by rw [getAll, hi₁, Option.bind_some, hi₂, Option.map_some], hheld₂⟩

end ILocalStream

/-- The values are written into the buffer, and read back into the variables: these have them
afterwards, and the buffer has the bytes that were written. -/
def RoundTripsStream (buffer : ByteStore) (values dests : List Value) : Prop :=
  ∃ o i, (OLocalStream.new buffer).putAll values = some o ∧
    (ILocalStream.new o.buffer).getAll dests = some (i, values) ∧
    i.buffer.read 0 o.size = o.buffer.read 0 o.size

/-- Values that fit come back, and leave the buffer unchanged, exactly where the variables that
they are read into have them already and every string among them is empty. -/
theorem roundTripsStream_iff (buffer : ByteStore) (values dests : List Value)
    (hfit : (encodeAll values).length ≤ buffer.size) (hsize : buffer.size < 2 ^ 32) :
    RoundTripsStream buffer values dests ↔ List.Forall₂ Value.Has dests values := by
  constructor
  · rintro ⟨o, i, -, hget, -⟩
    exact ILocalStream.forall₂_has_of_getAll hget
  · intro hhas
    obtain ⟨o, ho, hheld, hlen⟩ := OLocalStream.putAll_eq_some (o := .new buffer) []
      ⟨by simp, by simp⟩ rfl (by simpa [OLocalStream.new] using hfit) hsize
    obtain ⟨i, hi, hheld'⟩ := ILocalStream.getAll_eq_some (i := .new o.buffer) [] []
      hhas (by simpa [ILocalStream.new] using hheld) rfl
    rw [List.append_nil] at hheld'
    refine ⟨o, i, ho, hi, ?_⟩
    rw [hheld.read_eq hlen, hheld'.read_eq hlen]

/-- A byte is read back into the variable that has it, and the empty string into any. -/
theorem roundTripsStream_byte_empty :
    RoundTripsStream (.zeros 5) [.int .one 5, .string []] [.int .one 5, .string [1]] :=
  (roundTripsStream_iff _ _ _ (by decide) (by decide)).mpr (.cons rfl (.cons rfl .nil))

/-- A byte is not read into a variable that has another one. -/
theorem not_roundTripsStream_byte : ¬ RoundTripsStream (.zeros 1) [.int .one 5] [.int .one 0] := by
  rintro ⟨o, i, -, hget, -⟩
  have hhas := ILocalStream.forall₂_has_of_getAll hget
  obtain ⟨hhas, -⟩ := List.forall₂_cons.mp hhas
  have hne : ¬ (Value.int .one 0).Has (.int .one 5) := by
    rw [Value.Has]
    decide
  exact hne hhas

end MosqCluster
