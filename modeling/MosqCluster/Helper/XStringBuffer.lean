import Mathlib.Data.List.Infix
import Mathlib.Logic.Function.Basic
import MosqCluster.Helper.XString

/-!
# The buffer of a string

`hlp::xstring` of `helper/xstring.h`, with its buffer, which is never made smaller: `size_` says how
many of its bytes are those of the string, and what was there before is behind them. A new buffer is
not initialised. An operand is read where it is, and may not be the string itself; a buffer can be
had, in any size.

## Main definitions

* `XStringBuffer`, with the constructors, `assign`, the functions `append` and `substr`;
* `XStringBuffer.Represents`: a string, with its buffer, has a content;
* `XStringBuffer.Op` and `XStringBuffer.run`: operations on several strings;
* `XStringBuffer.Op.result` and `XStringBuffer.contentsAfter`: the byte strings that they are for;
* `XStringBuffer.Refines`: what a string with a content gives back.

## Main results

* `XStringBuffer.put_spec`: what is written stays inside the buffer;
* `XStringBuffer.represents_assign`, `XStringBuffer.Represents.appendBytes` and
  `XStringBuffer.Represents.substr`: the content after an operation;
* `XStringBuffer.represents_xstring`: the same content as that of `xstring`;
* `XStringBuffer.run_refines`: any sequence of operations.
-/

namespace MosqCluster

/-- The bytes of a buffer; `none` is one that has not been written. -/
abbrev Cells := List (Option UInt8)

namespace Cells

/-- `memcpy` or `memset` to an offset; `none` is a write outside the buffer. -/
def write (cells : Cells) (oft : Nat) (data : Cells) : Option Cells :=
  if oft + data.length ≤ cells.length then
    some (cells.take oft ++ data ++ cells.drop (oft + data.length))
  else none

/-- What `memcpy` reads; `none` is a read outside what is there. -/
def read (cells : Cells) (size : Nat) : Option Cells :=
  if size ≤ cells.length then some (cells.take size) else none

/-- The bytes of a `std::string`, with the zero byte behind them. -/
def ofString (str : Bytes) : Cells := (str ++ [0]).map some

/-- The bytes of a C string. -/
def ofChars (str : Bytes) : Cells := ofString (cString str)

end Cells

/-- `xstring`. -/
structure XStringBuffer where
  /-- `none` is `NULL`. -/
  buffer_ : Option Cells
  size_ : Int
  buffer_size_ : Int

namespace XStringBuffer

/-- The result of an operation on `int`s; `none` is an overflow. -/
def checkInt (n : Int) : Option Int := if -2 ^ 31 ≤ n ∧ n < 2 ^ 31 then some n else none

/-- A `size_t` as an `int`. -/
def toInt (n : Nat) : Int := (Int32.ofNat n).toInt

/-- An `int` as a `size_t`. -/
def toSize (n : Int) : Nat := (n % 2 ^ 64).toNat

/-- `xstring()`. -/
def new : XStringBuffer := ⟨none, 0, 0⟩

/-- `resize_buffer`. -/
def resizeBuffer (s : XStringBuffer) (size : Int) : XStringBuffer :=
  if size ≤ 0 then s
  else
    match s.buffer_ with
    | none => { s with buffer_ := some (.replicate size.toNat none), buffer_size_ := size }
    | some cells =>
      if s.buffer_size_ < size then
        -- `realloc` keeps the bytes that are there
        { s with
          buffer_ := some (cells ++ .replicate (size.toNat - cells.length) none)
          buffer_size_ := size }
      else s

/-- What `assign` and `append` do: make room for `size` bytes, copy some to an offset, and put a
zero byte behind them. -/
def put (s : XStringBuffer) (size : Int) (oft : Nat) (data : Cells) : Option XStringBuffer := do
  let s := s.resizeBuffer size
  let cells ← s.buffer_
  let cells ← cells.write oft data
  let cells ← cells.write (oft + data.length) [some 0]
  return { s with buffer_ := some cells }

/-- `assign(const char*, size_t)`. -/
def assign (s : XStringBuffer) (str : Option Cells) (size : Nat) : Option XStringBuffer :=
  match str with
  | none => some { s with size_ := 0 }
  | some str =>
    -- the buffer stays as it is, with what has been written to it
    if size = 0 then some { s with size_ := 0 }
    else do
      let data ← str.read size
      let s ← s.put (toInt (size + 1)) 0 data
      return { s with size_ := toInt size }

/-- `assign(const char*)`. -/
def assignChars (s : XStringBuffer) (str : Bytes) : Option XStringBuffer :=
  s.assign (some (.ofChars str)) (cString str).length

/-- `append(const char*, size_type)`. -/
def appendBytes (s : XStringBuffer) (str : Option Cells) (size : Int) : Option XStringBuffer :=
  match str with
  | none => some s
  | some str =>
    if size ≤ 0 then some s
    else do
      let total ← checkInt (s.size_ + size + 1)
      let data ← str.read size.toNat
      let s' ← s.put total s.size_.toNat data
      return { s' with size_ := s.size_ + size }

/-- `append(size_type, char)`. A negative size is a huge one for `memset`. -/
def appendCount (s : XStringBuffer) (size : Int) (ch : UInt8) : Option XStringBuffer :=
  if size = 0 then some s
  else if size < 0 then none
  else do
    let total ← checkInt (s.size_ + size + 1)
    let s' ← s.put total s.size_.toNat (.replicate size.toNat (some ch))
    return { s' with size_ := s.size_ + size }

/-- `length`. -/
def length (s : XStringBuffer) : Int := s.size_

/-- `empty`. -/
def empty (s : XStringBuffer) : Bool := s.size_ ≤ 0

/-- `c_str`. -/
def cStr (s : XStringBuffer) : Cells :=
  match s.buffer_ with
  | none => [some 0]
  | some cells => if s.size_ ≤ 0 then [some 0] else cells

/-- `operator[]`; `none` is a read of a byte that is not there. -/
def charAt (s : XStringBuffer) (index : Int) : Option UInt8 :=
  if index < 0 ∨ s.size_ ≤ index then some 0
  else (s.buffer_.bind fun cells => cells[index.toNat]?).join

/-- `xstring(const char*)`. -/
def ofChars (str : Bytes) : Option XStringBuffer :=
  new.assign (some (.ofChars str)) (cString str).length

/-- `xstring(const char*, size_type)`. -/
def ofBytes (str : Option Cells) (length : Int) : Option XStringBuffer :=
  new.assign str (toSize length)

/-- `xstring(const xstring&)`. -/
def ofXString (str : XStringBuffer) : Option XStringBuffer :=
  new.assign str.buffer_ (toSize str.length)

/-- `xstring(const std::string&)`. -/
def ofString (str : Bytes) : Option XStringBuffer :=
  new.assign (some (.ofString str)) (toSize (toInt str.length))

/-- `operator=(const char*)`. -/
def setChars (s : XStringBuffer) (str : Bytes) : Option XStringBuffer :=
  s.assign (some (.ofChars str)) (cString str).length

/-- `operator=(const xstring&)`. -/
def setXString (s str : XStringBuffer) : Option XStringBuffer :=
  s.assign (some str.cStr) (toSize str.length)

/-- `append(const char*)`. -/
def appendChars (s : XStringBuffer) (str : Bytes) : Option XStringBuffer :=
  s.appendBytes (some (.ofChars str)) (toInt (cString str).length)

/-- `append(const xstring&)`. -/
def appendXString (s str : XStringBuffer) : Option XStringBuffer :=
  s.appendBytes (some str.cStr) str.length

/-- `append(const std::string&)`. -/
def appendString (s : XStringBuffer) (str : Bytes) : Option XStringBuffer :=
  s.appendBytes (some (.ofString str)) (toInt str.length)

/-- `substr`, whose result is copied. -/
def substr (s : XStringBuffer) (offset count : Int) : Option XStringBuffer :=
  let sub := new
  if s.size_ ≤ offset ∨ offset < 0 then ofXString sub
  else if count < 0 ∨ s.size_ - offset < count then
    (sub.assign (s.buffer_.map (·.drop offset.toNat)) (toSize (s.size_ - offset))).bind ofXString
  else (sub.assign (s.buffer_.map (·.drop offset.toNat)) (toSize count)).bind ofXString

/-! ## The content of a string -/

/-- The bytes of the buffer. -/
def held (s : XStringBuffer) : Cells := s.buffer_.getD []

/-- A string has a content: its bytes are at the beginning of the buffer, and a zero byte is behind
them. -/
structure Represents (s : XStringBuffer) (bs : Bytes) : Prop where
  size : s.size_ = bs.length
  buffer_size : s.buffer_size_ = s.held.length
  content : bs ≠ [] → ∃ rest, s.buffer_ = some (bs.map some ++ some 0 :: rest)

/-- An operand has a content: so many bytes at a pointer, or none at a null pointer. -/
def Reads (str : Option Cells) (size : Nat) (bs : Bytes) : Prop :=
  match str with
  | none => bs = []
  | some cells => size ≤ cells.length ∧ cells.take size = bs.map some

section Write

variable {s : XStringBuffer} {cells p data : Cells} {bs bs' : Bytes} {str : Option Cells}

/-- Behind some bytes there is room for others. -/
theorem write_append (p q data : Cells) (h : data.length ≤ q.length) :
    (p ++ q).write p.length data = some (p ++ data ++ q.drop data.length) := by
  rw [Cells.write, if_pos (by rw [List.length_append]; omega), List.take_left, ← List.drop_drop,
    List.drop_left]

/-- There is room for some bytes, and what was held is at the beginning. -/
theorem resizeBuffer_spec (hsize : s.buffer_size_ = s.held.length) {n : Nat} (hn : 0 < n) :
    ∃ cells, (s.resizeBuffer n).buffer_ = some cells ∧ s.held <+: cells ∧ n ≤ cells.length ∧
      (s.resizeBuffer n).buffer_size_ = cells.length ∧ (s.resizeBuffer n).size_ = s.size_ := by
  rw [resizeBuffer, if_neg (by omega)]
  cases hbuffer : s.buffer_ with
  | none =>
    refine ⟨_, rfl, ?_, ?_, ?_, rfl⟩
    · rw [held, hbuffer]
      exact List.nil_prefix
    · rw [List.length_replicate, Int.toNat_natCast]
    · rw [List.length_replicate, Int.toNat_natCast]
  | some cells =>
    have hheld : s.held = cells := by rw [held, hbuffer]; rfl
    rw [hheld] at hsize ⊢
    dsimp only
    split_ifs with hsmall
    · refine ⟨_, rfl, List.prefix_append _ _, ?_, ?_, rfl⟩
      · rw [List.length_append, List.length_replicate, Int.toNat_natCast]
        omega
      · rw [List.length_append, List.length_replicate, Int.toNat_natCast]
        show (n : Int) = _
        omega
    · exact ⟨cells, hbuffer, List.prefix_rfl, by omega, hsize, rfl⟩

/-- What is written behind some bytes stays inside the buffer. -/
theorem put_spec (hsize : s.buffer_size_ = s.held.length) (hp : p <+: s.held) (data : Cells) :
    ∃ s' rest, s.put (p.length + data.length + 1 : Nat) p.length data = some s' ∧
      s'.buffer_ = some (p ++ data ++ some 0 :: rest) ∧ s'.buffer_size_ = s'.held.length ∧
      s'.size_ = s.size_ := by
  obtain ⟨cells, hbuffer, hheld, hroom, hlength, hsame⟩ :=
    resizeBuffer_spec hsize (Nat.succ_pos (p.length + data.length))
  obtain ⟨q, rfl⟩ := hp.trans hheld
  rw [List.length_append] at hroom
  have hdata := write_append p q data (by omega)
  have hzero := write_append (p ++ data) (q.drop data.length) [some 0]
    (by rw [List.length_drop, List.length_singleton]; omega)
  rw [List.length_append] at hzero
  rw [List.append_assoc (p ++ data), List.singleton_append, List.length_singleton] at hzero
  refine ⟨{ s.resizeBuffer (p.length + data.length + 1 : Nat) with
      buffer_ := some (p ++ data ++ some 0 :: (q.drop data.length).drop 1) },
    (q.drop data.length).drop 1, ?_, rfl, ?_, hsame⟩
  · simp only [put, Option.bind_eq_bind, hbuffer, Option.bind_some, hdata, hzero, Option.pure_def]
  · show (s.resizeBuffer _).buffer_size_ = _
    rw [hlength]
    simp only [held, Option.getD_some, List.length_append, List.length_cons, List.length_drop]
    omega

theorem toInt_eq {n : Nat} (h : n < 2 ^ 31) : toInt n = n := Int32.toInt_ofNat_of_lt h

theorem toSize_eq {n : Nat} (h : n < 2 ^ 31) : toSize n = n := by
  rw [toSize]
  omega

theorem checkInt_eq {n : Int} (h : 0 ≤ n ∧ n < 2 ^ 31) : checkInt n = some n :=
  if_pos ⟨by omega, h.2⟩

/-- What is read of an operand with a content. -/
theorem Reads.read_eq {size : Nat} (h : Reads (some cells) size bs) :
    cells.read size = some (bs.map some) ∧ bs.length = size := by
  obtain ⟨hle, htake⟩ := h
  have hlength := congrArg List.length htake
  rw [List.length_take, List.length_map] at hlength
  exact ⟨by rw [Cells.read, if_pos hle, htake], by omega⟩

/-- The first bytes of an operand. -/
theorem reads_append (bs rest : Bytes) : Reads (some ((bs ++ rest).map some)) bs.length bs := by
  refine ⟨by simp, ?_⟩
  rw [← List.map_take, List.take_left]

theorem represents_clear (hsize : s.buffer_size_ = s.held.length) :
    Represents { s with size_ := 0 } [] :=
  ⟨rfl, hsize, fun h => absurd rfl h⟩

/-- After `assign` a string has the content of the operand. -/
theorem represents_assign (hsize : s.buffer_size_ = s.held.length) {size : Nat}
    (hreads : Reads str size bs) (hlength : bs.length < 2 ^ 31 - 1) :
    ∃ s', s.assign str size = some s' ∧ s'.Represents bs := by
  match str, hreads with
  | none, hreads =>
    obtain rfl : bs = [] := hreads
    exact ⟨_, rfl, represents_clear hsize⟩
  | some cells, hreads =>
    obtain ⟨hread, rfl⟩ := hreads.read_eq
    rw [assign]
    split_ifs with hzero
    · obtain rfl := List.length_eq_zero_iff.mp hzero
      exact ⟨_, rfl, represents_clear hsize⟩
    · obtain ⟨s', rest, hput, hbuffer, hsize', -⟩ :=
        put_spec hsize List.nil_prefix (bs.map some)
      rw [List.length_nil, Nat.zero_add, List.length_map] at hput
      refine ⟨{ s' with size_ := bs.length }, ?_, rfl, hsize', fun _ => ⟨rest, hbuffer⟩⟩
      rw [hread, toInt_eq (by omega), toInt_eq (by omega)]
      simp only [Option.bind_eq_bind, Option.bind_some, hput, Option.pure_def]

/-- The bytes of a string are at the beginning of its buffer. -/
theorem Represents.prefix_held (h : s.Represents bs) : bs.map some <+: s.held := by
  by_cases hbs : bs = []
  · subst hbs
    exact List.nil_prefix
  · obtain ⟨rest, hbuffer⟩ := h.content hbs
    rw [held, hbuffer]
    exact List.prefix_append _ _

/-- What is put behind the bytes of a string belongs to it. -/
theorem Represents.put (h : s.Represents bs) (bs' : Bytes) :
    ∃ s', s.put (s.size_ + bs'.length + 1) s.size_.toNat (bs'.map some) = some s' ∧
      Represents { s' with size_ := s.size_ + bs'.length } (bs ++ bs') := by
  obtain ⟨s', rest, hput, hbuffer, hsize', -⟩ :=
    put_spec h.buffer_size h.prefix_held (bs'.map some)
  rw [List.length_map, List.length_map] at hput
  rw [h.size, Int.toNat_natCast]
  refine ⟨s', hput, ?_, hsize', fun _ => ⟨rest, ?_⟩⟩
  · rw [List.length_append, Int.natCast_add]
  · rw [hbuffer, List.map_append]

/-- `append` adds the content of the operand. -/
theorem Represents.appendBytes (h : s.Represents bs) {size : Int}
    (hreads : Reads str size.toNat bs') (hlength : (bs ++ bs').length < 2 ^ 31 - 1) :
    ∃ s', s.appendBytes str size = some s' ∧ s'.Represents (bs ++ bs') := by
  rw [List.length_append] at hlength
  match str, hreads with
  | none, hreads =>
    obtain rfl : bs' = [] := hreads
    exact ⟨s, rfl, by rwa [List.append_nil]⟩
  | some cells, hreads =>
    obtain ⟨hread, hsize⟩ := hreads.read_eq
    rw [XStringBuffer.appendBytes]
    split_ifs with hzero
    · obtain rfl : bs' = [] := List.length_eq_zero_iff.mp (by omega)
      exact ⟨s, rfl, by rwa [List.append_nil]⟩
    · obtain ⟨s', hput, h'⟩ := h.put bs'
      have hsize : size = bs'.length := by omega
      subst hsize
      refine ⟨_, ?_, h'⟩
      rw [checkInt_eq (by rw [h.size]; omega), hread]
      simp only [Option.bind_eq_bind, Option.bind_some, hput, Option.pure_def]

/-- `append` adds a character a number of times. -/
theorem Represents.appendCount (h : s.Represents bs) {size : Int} (hsize : 0 ≤ size) (ch : UInt8)
    (hlength : (bs ++ .replicate size.toNat ch).length < 2 ^ 31 - 1) :
    ∃ s', s.appendCount size ch = some s' ∧ s'.Represents (bs ++ .replicate size.toNat ch) := by
  rw [List.length_append, List.length_replicate] at hlength
  obtain ⟨n, rfl⟩ := Int.eq_ofNat_of_zero_le hsize
  rw [XStringBuffer.appendCount]
  split_ifs with hzero hneg
  · obtain rfl : n = 0 := by omega
    exact ⟨s, rfl, by simpa using h⟩
  · omega
  · obtain ⟨s', hput, h'⟩ := h.put (.replicate n ch)
    rw [List.length_replicate, List.map_replicate] at hput
    rw [List.length_replicate] at h'
    refine ⟨_, ?_, h'⟩
    rw [Int.toNat_natCast] at hlength ⊢
    rw [checkInt_eq (by rw [h.size]; omega)]
    simp only [Option.bind_eq_bind, Option.bind_some, hput, Option.pure_def]

/-! ## What an operand is -/

theorem represents_new : new.Represents [] :=
  ⟨rfl, rfl, fun h => absurd rfl h⟩

/-- The first bytes at a pointer that may be null. -/
theorem reads_pointer (str : Option Bytes) {size : Nat} (h : ∀ data ∈ str, size ≤ data.length) :
    Reads (str.map (·.map some)) size ((str.getD []).take size) := by
  cases str with
  | none => exact List.take_nil
  | some data =>
    refine ⟨?_, (List.map_take ..).symm⟩
    rw [List.length_map]
    exact h data rfl

theorem reads_ofString (str : Bytes) : Reads (some (Cells.ofString str)) str.length str :=
  reads_append str [0]

theorem reads_ofChars (str : Bytes) :
    Reads (some (Cells.ofChars str)) (cString str).length (cString str) :=
  reads_ofString (cString str)

/-- `c_str` gives back the content and the zero byte behind it. -/
theorem Represents.cStr_eq (h : s.Represents bs) :
    ∃ rest, s.cStr = bs.map some ++ some 0 :: rest := by
  have hsize := h.size
  by_cases hbs : bs = []
  · subst hbs
    refine ⟨[], ?_⟩
    rw [cStr]
    split
    · rfl
    · exact if_pos (Int.le_of_eq hsize)
  · obtain ⟨rest, hbuffer⟩ := h.content hbs
    have hpos := List.length_pos_iff.mpr hbs
    refine ⟨rest, ?_⟩
    rw [cStr, hbuffer]
    exact if_neg (by omega)

theorem Represents.reads_cStr (h : s.Represents bs) : Reads (some s.cStr) bs.length bs := by
  obtain ⟨rest, hcStr⟩ := h.cStr_eq
  rw [hcStr]
  refine ⟨by simp, ?_⟩
  rw [← List.length_map (f := some), List.take_left]

/-- The bytes of the buffer from an offset on. -/
theorem Represents.reads_drop (h : s.Represents bs) (offset count : Nat)
    (hle : offset + count ≤ bs.length) :
    Reads (s.buffer_.map (·.drop offset)) count ((bs.drop offset).take count) := by
  have hheld := h.prefix_held
  cases hbuffer : s.buffer_ with
  | none =>
    rw [held, hbuffer, Option.getD_none, List.prefix_nil, List.map_eq_nil_iff] at hheld
    rw [hheld, List.drop_nil, List.take_nil]
    rfl
  | some cells =>
    rw [held, hbuffer, Option.getD_some] at hheld
    obtain ⟨rest, rfl⟩ := hheld
    refine ⟨?_, ?_⟩
    · rw [List.length_drop, List.length_append, List.length_map]
      omega
    · show ((bs.map some ++ rest).drop offset).take count = _
      rw [List.drop_append_of_le_length (by rw [List.length_map]; omega),
        List.take_append_of_le_length (by rw [List.length_drop, List.length_map]; omega),
        ← List.map_drop, ← List.map_take]

theorem Represents.reads_buffer (h : s.Represents bs) : Reads s.buffer_ bs.length bs := by
  have hreads := h.reads_drop 0 bs.length (by omega)
  rwa [List.drop_zero, List.take_length, show (fun cells : Cells => cells.drop 0) = id from rfl,
    Option.map_id] at hreads

/-- The constructor copies what `xstring` does. -/
theorem represents_xstring {str : Bytes} {length : Int32} (hle : length.toInt ≤ str.length)
    (h : xstring str length = some bs) :
    ∃ s', ofBytes (some (str.map some)) length.toInt = some s' ∧ s'.Represents bs := by
  obtain ⟨rfl, hmax⟩ := eq_take_of_xstring h
  have hpos : 0 ≤ length.toInt := by
    by_contra hneg
    have hlt : length < 0 := Int32.lt_iff_toInt_lt.mpr (Int.not_le.mp hneg)
    simp [xstring, hlt] at h
  have hreads : Reads (some (str.map some)) length.toInt.toNat (str.take length.toInt.toNat) := by
    refine reads_pointer (some str) fun data hdata => ?_
    obtain rfl := Option.some.inj hdata
    omega
  rw [ofBytes, toSize, Int.emod_eq_of_lt hpos (by omega)]
  refine represents_assign represents_new.buffer_size hreads ?_
  rw [List.length_take]
  omega

theorem represents_ofXString (h : s.Represents bs) (hlength : bs.length < 2 ^ 31 - 1) :
    ∃ s', ofXString s = some s' ∧ s'.Represents bs := by
  rw [ofXString, length, h.size, toSize_eq (by omega)]
  exact represents_assign represents_new.buffer_size h.reads_buffer hlength

/-- What `substr` is for. A negative count goes to the end. -/
def substring (bs : Bytes) (offset count : Int) : Bytes :=
  if offset < 0 then []
  else if count < 0 then bs.drop offset.toNat
  else (bs.drop offset.toNat).take count.toNat

/-- A string that is assigned a part of the buffer, and copied. -/
theorem Represents.assign_drop (h : s.Represents bs) (hlength : bs.length < 2 ^ 31 - 1)
    {offset count : Nat} (hle : offset + count ≤ bs.length) :
    ∃ s', (new.assign (s.buffer_.map (·.drop offset)) count).bind ofXString = some s' ∧
      s'.Represents ((bs.drop offset).take count) := by
  have hpart : ((bs.drop offset).take count).length < 2 ^ 31 - 1 := by
    rw [List.length_take, List.length_drop]
    omega
  obtain ⟨sub, hassign, hsub⟩ :=
    represents_assign represents_new.buffer_size (h.reads_drop offset count hle) hpart
  rw [hassign]
  exact represents_ofXString hsub hpart

/-- `substr` gives back a part of the content. -/
theorem Represents.substr (h : s.Represents bs) (hlength : bs.length < 2 ^ 31 - 1)
    (offset count : Int) :
    ∃ s', s.substr offset count = some s' ∧ s'.Represents (substring bs offset count) := by
  have hsize := h.size
  by_cases hneg : offset < 0
  · rw [XStringBuffer.substr, if_pos (Or.inr hneg), substring, if_pos hneg]
    exact represents_ofXString represents_new (by decide)
  obtain ⟨offset, rfl⟩ := Int.eq_ofNat_of_zero_le (Int.not_lt.mp hneg)
  rw [XStringBuffer.substr, substring, if_neg hneg, Int.toNat_natCast]
  by_cases hend : bs.length ≤ offset
  · -- nothing is left behind the offset, and the string is a copy of `xstring()`
    rw [if_pos (Or.inl (by omega)), List.drop_eq_nil_of_le hend, List.take_nil, ite_self]
    exact represents_ofXString represents_new (by decide)
  rw [if_neg (by omega)]
  by_cases hcount : 0 ≤ count ∧ count ≤ (bs.drop offset).length
  · rw [List.length_drop] at hcount
    rw [if_neg (by omega), if_neg (by omega), toSize, Int.emod_eq_of_lt (by omega) (by omega)]
    exact h.assign_drop hlength (by omega)
  · -- the rest of the string, which is what `take` gives back too
    have hrest : (if count < 0 then bs.drop offset else (bs.drop offset).take count.toNat) =
        (bs.drop offset).take (bs.length - offset) := by
      rw [← List.length_drop, List.take_length]
      split_ifs with hneg
      · rfl
      · exact List.take_of_length_le (by omega)
    have hsize : s.size_ - offset = (bs.length - offset : Nat) := by omega
    rw [List.length_drop] at hcount
    rw [hrest, hsize, if_pos (by omega), toSize_eq (by omega)]
    exact h.assign_drop hlength (by omega)

/-- A byte of the content, and a zero byte outside it. -/
theorem Represents.charAt (h : s.Represents bs) (index : Int) :
    s.charAt index = some (if index < 0 then 0 else bs[index.toNat]?.getD 0) := by
  rw [XStringBuffer.charAt, h.size]
  by_cases hneg : index < 0
  · rw [if_pos (Or.inl hneg), if_pos hneg]
  obtain ⟨index, rfl⟩ := Int.eq_ofNat_of_zero_le (Int.not_lt.mp hneg)
  rw [if_neg hneg, Int.toNat_natCast]
  by_cases hout : bs.length ≤ index
  · rw [if_pos (Or.inr (by omega)), List.getElem?_eq_none hout, Option.getD_none]
  · have hindex : index < bs.length := Nat.not_le.mp hout
    obtain ⟨rest, hbuffer⟩ := h.content (List.ne_nil_of_length_pos (Nat.zero_lt_of_lt hindex))
    rw [if_neg (by omega), hbuffer, Option.bind_some, List.getElem?_append_left (by simpa),
      List.getElem?_map, List.getElem?_eq_getElem hindex]
    rfl

theorem Represents.empty (h : s.Represents bs) : s.empty = bs.isEmpty := by
  rw [XStringBuffer.empty, h.size, Bool.eq_iff_iff, decide_eq_true_iff,
    List.isEmpty_iff_length_eq_zero]
  omega

end Write

/-! ## Operations on several strings -/

/-- What is done to one of several strings. A `Nat` is another one of them, a `Bytes` a C string, a
`std::string`, or with a size what is there at a pointer, which may be null. -/
inductive Op where
  | init
  | initChars (str : Bytes)
  | initBytes (str : Option Bytes) (length : Int)
  | initCopy (str : Nat)
  | initString (str : Bytes)
  /-- The string is constructed from `substr`. -/
  | initSubstr (str : Nat) (offset count : Int)
  | assign (str : Option Bytes) (size : Nat)
  | assignChars (str : Bytes)
  | setChars (str : Bytes)
  | set (str : Nat)
  | appendBytes (str : Option Bytes) (size : Int)
  | appendCount (size : Int) (ch : UInt8)
  | appendChars (str : Bytes)
  | append (str : Nat)
  | appendString (str : Bytes)

/-- An operation, with the string it changes. -/
structure Call where
  target : Nat
  op : Op

/-- What becomes of the string. -/
def Op.exec (strings : Nat → XStringBuffer) (s : XStringBuffer) : Op → Option XStringBuffer
  | init => some new
  | initChars str => ofChars str
  | initBytes str length => ofBytes (str.map (·.map some)) length
  | initCopy str => ofXString (strings str)
  | initString str => ofString str
  | initSubstr str offset count => (strings str).substr offset count
  | assign str size => s.assign (str.map (·.map some)) size
  | assignChars str => s.assignChars str
  | setChars str => s.setChars str
  | set str => s.setXString (strings str)
  | appendBytes str size => s.appendBytes (str.map (·.map some)) size
  | appendCount size ch => s.appendCount size ch
  | appendChars str => s.appendChars str
  | append str => s.appendXString (strings str)
  | appendString str => s.appendString str

/-- The byte string that an operation is for. -/
def Op.result (contents : Nat → Bytes) (bs : Bytes) : Op → Bytes
  | init => []
  | initChars str => cString str
  | initBytes str length => (str.getD []).take length.toNat
  | initCopy str => contents str
  | initString str => str
  | initSubstr str offset count => substring (contents str) offset count
  | assign str size => (str.getD []).take size
  | assignChars str => cString str
  | setChars str => cString str
  | set str => contents str
  | appendBytes str size => bs ++ (str.getD []).take size.toNat
  | appendCount size ch => bs ++ .replicate size.toNat ch
  | appendChars str => bs ++ cString str
  | append str => bs ++ contents str
  | appendString str => bs ++ str

/-- The operand is not the string itself, and what is read at a pointer is there. -/
def Call.Valid (call : Call) : Prop :=
  match call.op with
  | .initCopy str | .initSubstr str _ _ | .set str | .append str => str ≠ call.target
  | .initBytes str length => ∀ data ∈ str, 0 ≤ length ∧ length ≤ data.length
  | .assign str size => ∀ data ∈ str, size ≤ data.length
  | .appendBytes str size => ∀ data ∈ str, size ≤ data.length
  | .appendCount size _ => 0 ≤ size
  | _ => True

/-- The contents after an operation. -/
def Call.contents (call : Call) (contents : Nat → Bytes) : Nat → Bytes :=
  Function.update contents call.target (call.op.result contents (contents call.target))

/-- The strings after an operation. -/
def Call.exec (call : Call) (strings : Nat → XStringBuffer) : Option (Nat → XStringBuffer) :=
  (call.op.exec strings (strings call.target)).map (Function.update strings call.target)

/-- The strings after some operations; `none` is undefined behaviour. -/
def run (strings : Nat → XStringBuffer) : List Call → Option (Nat → XStringBuffer)
  | [] => some strings
  | call :: calls => (call.exec strings).bind (run · calls)

/-- The byte strings after the same operations. -/
def contentsAfter (contents : Nat → Bytes) : List Call → Nat → Bytes
  | [] => contents
  | call :: calls => contentsAfter (call.contents contents) calls

/-- No content has `INT_MAX` bytes or more. -/
def Fits (contents : Nat → Bytes) : List Call → Prop
  | [] => True
  | call :: calls =>
    (call.contents contents call.target).length < 2 ^ 31 - 1 ∧ Fits (call.contents contents) calls

instance decidableFits (contents : Nat → Bytes) : (calls : List Call) →
    Decidable (Fits contents calls)
  | [] => inferInstanceAs (Decidable True)
  | call :: calls =>
    have := decidableFits (call.contents contents) calls
    inferInstanceAs (Decidable (_ ∧ _))

section Run

variable {strings : Nat → XStringBuffer} {contents : Nat → Bytes} {call : Call}

/-- An operation that is valid does to the content what it is for. -/
theorem Call.represents_exec (h : ∀ x, (strings x).Represents (contents x)) (hvalid : call.Valid)
    (hfits : (call.op.result contents (contents call.target)).length < 2 ^ 31 - 1)
    (hcontents : ∀ x, (contents x).length < 2 ^ 31 - 1) :
    ∃ s, call.op.exec strings (strings call.target) = some s ∧
      s.Represents (call.op.result contents (contents call.target)) := by
  obtain ⟨target, op⟩ := call
  have hnew := represents_new.buffer_size
  have hown := (h target).buffer_size
  -- each operation is `assign` of an operand to a new string or to the target, or one that appends
  cases op with
  | init => exact ⟨new, rfl, represents_new⟩
  | initChars str => exact represents_assign hnew (reads_ofChars str) hfits
  | initBytes str length =>
    have hreads : Reads (str.map (·.map some)) (toSize length)
        ((str.getD []).take length.toNat) := by
      cases str with
      | none => exact List.take_nil
      | some data =>
        obtain ⟨hpos, hle⟩ := hvalid data rfl
        -- a length that is not negative stays the same as a `size_t`
        have hsize : toSize length = length.toNat := by
          rw [Op.result, Option.getD_some, List.length_take] at hfits
          rw [toSize]
          omega
        rw [hsize]
        refine reads_pointer (some data) fun data' hdata' => ?_
        obtain rfl := Option.some.inj hdata'
        omega
    exact represents_assign hnew hreads hfits
  | initCopy str => exact represents_ofXString (h str) hfits
  | initString str =>
    rw [Op.result] at hfits
    rw [Op.exec, ofString, toInt_eq (by omega), toSize_eq (by omega)]
    exact represents_assign hnew (reads_ofString str) hfits
  | initSubstr str offset count => exact (h str).substr (hcontents str) offset count
  | assign str size => exact represents_assign hown (reads_pointer str hvalid) hfits
  | assignChars str => exact represents_assign hown (reads_ofChars str) hfits
  | setChars str => exact represents_assign hown (reads_ofChars str) hfits
  | set str =>
    rw [Op.exec, setXString, length, (h str).size, toSize_eq (by have := hcontents str; omega)]
    exact represents_assign hown (h str).reads_cStr hfits
  | appendBytes str size =>
    refine (h target).appendBytes (reads_pointer str fun data hdata => ?_) hfits
    have := hvalid data hdata
    omega
  | appendCount size ch => exact (h target).appendCount hvalid ch hfits
  | appendChars str =>
    have hlength := hfits
    rw [Op.result, List.length_append] at hlength
    rw [Op.exec, XStringBuffer.appendChars, toInt_eq (by omega)]
    exact (h target).appendBytes (reads_ofChars str) hfits
  | append str =>
    rw [Op.exec, appendXString, length, (h str).size]
    exact (h target).appendBytes (h str).reads_cStr hfits
  | appendString str =>
    have hlength := hfits
    rw [Op.result, List.length_append] at hlength
    rw [Op.exec, XStringBuffer.appendString, toInt_eq (by omega)]
    exact (h target).appendBytes (reads_ofString str) hfits

/-- What a string whose content is a byte string gives back, and where its bytes are. -/
structure Refines (s : XStringBuffer) (bs : Bytes) : Prop where
  length : s.length = bs.length
  content : s.cStr.take s.length.toNat = bs.map some
  terminator : s.cStr[s.length.toNat]? = some (some 0)
  room : 0 < s.size_ → s.size_ + 1 ≤ s.buffer_size_
  /-- A write is inside the buffer where it is below `buffer_size_`. -/
  buffer_size : s.buffer_size_ = s.held.length

theorem Represents.refines {s : XStringBuffer} {bs : Bytes} (h : s.Represents bs) :
    s.Refines bs := by
  obtain ⟨rest, hcStr⟩ := h.cStr_eq
  have hlength : s.length.toNat = (bs.map some).length := by
    rw [XStringBuffer.length, h.size, Int.toNat_natCast, List.length_map]
  refine ⟨h.size, ?_, ?_, ?_, h.buffer_size⟩
  · rw [hcStr, hlength, List.take_left]
  · rw [hcStr, hlength, List.getElem?_append_right (Nat.le_refl _), Nat.sub_self]
    rfl
  · intro hpos
    rw [h.size] at hpos
    obtain ⟨rest, hbuffer⟩ := h.content (List.ne_nil_of_length_pos (by omega))
    rw [h.buffer_size, held, hbuffer, Option.getD_some, h.size, List.length_append, List.length_map,
      List.length_cons]
    omega

/-- Some operations, from strings with contents. -/
theorem represents_run {calls : List Call} (h : ∀ x, (strings x).Represents (contents x))
    (hcontents : ∀ x, (contents x).length < 2 ^ 31 - 1) (hvalid : ∀ call ∈ calls, call.Valid)
    (hfits : Fits contents calls) :
    ∃ strings', run strings calls = some strings' ∧
      ∀ x, (strings' x).Represents (contentsAfter contents calls x) := by
  induction calls generalizing strings contents with
  | nil => exact ⟨strings, rfl, h⟩
  | cons call calls ih =>
    obtain ⟨hhead, htail⟩ := hfits
    rw [List.forall_mem_cons] at hvalid
    have hresult : call.contents contents call.target =
        call.op.result contents (contents call.target) := Function.update_self ..
    obtain ⟨s, hexec, hs⟩ := call.represents_exec h hvalid.1 (hresult ▸ hhead) hcontents
    have hother {x : Nat} (hx : x ≠ call.target) : call.contents contents x = contents x :=
      Function.update_of_ne hx ..
    -- the other strings stay as they are
    have hrepr : ∀ x, (Function.update strings call.target s x).Represents
        (call.contents contents x) := by
      intro x
      by_cases hx : x = call.target
      · rw [hx, Function.update_self, hresult]
        exact hs
      · rw [Function.update_of_ne hx, hother hx]
        exact h x
    have hlengths : ∀ x, (call.contents contents x).length < 2 ^ 31 - 1 := by
      intro x
      by_cases hx : x = call.target
      · rw [hx]
        exact hhead
      · rw [hother hx]
        exact hcontents x
    obtain ⟨strings', hrun, h'⟩ := ih hrepr hlengths hvalid.2 htail
    refine ⟨strings', ?_, h'⟩
    -- the first call, and then the others from what it leaves
    rw [run, Call.exec, hexec]
    exact hrun

/-- Strings that are constructed, assigned and appended to hold what byte strings do under the same
operations. -/
theorem run_refines {calls : List Call} (hvalid : ∀ call ∈ calls, call.Valid)
    (hfits : Fits (fun _ => []) calls) :
    ∃ strings, run (fun _ => new) calls = some strings ∧
      ∀ x, (strings x).Refines (contentsAfter (fun _ => []) calls x) := by
  obtain ⟨strings, hrun, h⟩ :=
    represents_run (fun _ => represents_new) (fun _ => by decide) hvalid hfits
  exact ⟨strings, hrun, fun x => (h x).refines⟩

/-- A string that was shorter before and one made from a part of it. -/
theorem run_refines_substr :
    ∃ strings, run (fun _ => new) [⟨0, .initChars (bytes "abcde")⟩, ⟨0, .assign (some [1, 0, 2]) 3⟩,
        ⟨0, .appendCount 2 7⟩, ⟨1, .initSubstr 0 1 (-1)⟩, ⟨1, .append 0⟩] = some strings ∧
      ∀ x, (strings x).Refines (contentsAfter (fun _ => []) [⟨0, .initChars (bytes "abcde")⟩,
        ⟨0, .assign (some [1, 0, 2]) 3⟩, ⟨0, .appendCount 2 7⟩, ⟨1, .initSubstr 0 1 (-1)⟩,
        ⟨1, .append 0⟩] x) := by
  refine run_refines ?_ ?_
  · simp [Call.Valid]
  · decide

end Run

end XStringBuffer

end MosqCluster
