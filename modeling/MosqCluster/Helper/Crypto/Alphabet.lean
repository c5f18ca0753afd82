import Mathlib.Data.Bool.AllAny
import Mathlib.Data.List.GetD
import Mathlib.Data.List.Nodup
import Mathlib.Logic.Function.Basic
import MosqCluster.Helper.XString

/-!
# The alphabets of the codecs

`SetKeys` of `helper/crypto/base64.cpp` and `helper/crypto/base32.cpp`, which differ in the number
of symbols only. It copies the alphabet, and fills the table of the decoder while it checks that no
character stands twice. The characters are signed; one from 128 on is a negative index.

## Main definitions

* `Tables`: the tables of a codec, with `Tables.setKeys`;
* `Alphabet` and `Tables.Invertible`: what an alphabet has to be, and what the tables have to be;
* `Tables.Validates`: `SetKeys` leaves a codec that can be used.

## Main results

* `Tables.setKeys_of_alphabet` and `Tables.setKeys_of_not_alphabet`: what `SetKeys` does;
* `Tables.validates_iff`: the strings for which a codec is left that can be used.
-/

namespace MosqCluster

namespace crypt

/-- The tables of a codec with `n` symbols. -/
structure Tables (n : Nat) where
  /-- `keys_`: the characters of the symbols. -/
  keys : Vector UInt8 n
  /-- `index_`: the symbols of the characters. A character that is not one of the alphabet has what
  has been left there. -/
  index : UInt8 → UInt8

/-- The class `Base64`. -/
abbrev Base64 := Tables 64

/-- The class `BASE32`. -/
abbrev BASE32 := Tables 32

/-- `kDefaultBase64Keys`. -/
def kDefaultBase64Keys : Vector UInt8 64 :=
  ⟨(bytes "ABCDEFGHIJKLMNOPQRSTUVWXYZabcdefghijklmnopqrstuvwxyz0123456789+/").toArray, rfl⟩

/-- `kDefaultBase32Keys`. -/
def kDefaultBase32Keys : Vector UInt8 32 :=
  ⟨(bytes "0123456789abcdfhijklmoqrstuvwxyz").toArray, rfl⟩

namespace Tables

variable {n : Nat}

/-- The character of a symbol. -/
def key (c : Tables n) (symbol : UInt8) : UInt8 := c.keys.toList.getD symbol.toNat 0

/-- The loop of `SetKeys` from a symbol on: the return value and `index_`. `none` is the undefined
behaviour of a negative index. -/
def installLoop : List UInt8 → UInt8 → Int → (UInt8 → UInt8) → (UInt8 → UInt8) →
    Option (Int × (UInt8 → UInt8))
  | [], _, retval, _, index => some (retval, index)
  | k :: keys, i, retval, indexcount, index =>
    if 128 ≤ k then none
    else installLoop keys (i + 1) (if indexcount k = 1 then -1 else retval)
      (Function.update indexcount k 1) (Function.update index k i)

/-- `SetKeys` from the loop on. -/
def install (c : Tables n) (keys : Vector UInt8 n) (retval : Int) : Option (Int × Tables n) :=
  (installLoop keys.toList 0 retval (fun _ => 0) c.index).map fun r => (r.1, ⟨keys, r.2⟩)

/-- The first characters of a string that has enough. -/
def firstKeys (keys : Bytes) (h : ¬ keys.length < n) : Vector UInt8 n :=
  ⟨(keys.take n).toArray, by rw [List.size_toArray, List.length_take]; omega⟩

/-- `SetKeys`, with the alphabet that it takes for one that is too short. -/
def setKeys (dflt : Vector UInt8 n) (c : Tables n) (keys : Bytes) : Option (Int × Tables n) :=
  if h : keys.length < n then c.install dflt (-1) else c.install (firstKeys keys h) 0

end Tables

/-- `Base64::SetKeys`. -/
def Base64.setKeys (c : Base64) (keys : Bytes) : Option (Int × Base64) :=
  Tables.setKeys kDefaultBase64Keys c keys

/-- `BASE32::SetKeys`. -/
def BASE32.setKeys (c : BASE32) (keys : Bytes) : Option (Int × BASE32) :=
  Tables.setKeys kDefaultBase32Keys c keys

/-- A symbol has no other bits than the mask. -/
def Fits (mask symbol : UInt8) : Prop := symbol &&& mask = symbol

/-- The mask is the greatest symbol. -/
theorem Fits.toNat_le {mask symbol : UInt8} (h : Fits mask symbol) :
    symbol.toNat ≤ mask.toNat := by
  rw [← h, UInt8.toNat_and]
  exact Nat.and_le_right

/-! ## Alphabets -/

/-- Different characters below 128, none of them reserved. -/
structure Alphabet (reserved keys : Bytes) : Prop where
  nodup : keys.Nodup
  ascii : ∀ k ∈ keys, k < 128
  free : ∀ k ∈ keys, k ∉ reserved

/-- The tables belong together: the alphabet can be read back from the characters, none of which is
the padding. -/
structure Tables.Invertible {n : Nat} (reserved : Bytes) (c : Tables n) : Prop where
  alphabet : Alphabet reserved c.keys.toList
  index_key : ∀ i < n, c.index (c.key (.ofNat i)) = .ofNat i

/-- `SetKeys` returns 0 with tables that can be used, or -1 with tables that can be used and are not
those of the rejected alphabet. -/
def Tables.Validates {n : Nat} (reserved : Bytes) (dflt : Vector UInt8 n) (c : Tables n)
    (keys : Bytes) : Prop :=
  ∃ retval c', c.setKeys dflt keys = some (retval, c') ∧
    (retval = 0 ∧ c'.Invertible reserved ∨
      retval = -1 ∧ c'.Invertible reserved ∧ (c'.keys = c.keys ∨ c'.keys = dflt))

/-- The default alphabets can be used. -/
theorem alphabet_default : Alphabet [61] kDefaultBase64Keys.toList ∧
    Alphabet [] kDefaultBase32Keys.toList := by
  refine ⟨⟨by decide, ?_, ?_⟩, ⟨by decide, ?_, ?_⟩⟩ <;>
    exact List.all_iff_forall_prop.mp (by decide)

namespace Tables

variable {n : Nat} {keys : List UInt8} {i : UInt8} {retval : Int} {indexcount index : UInt8 → UInt8}

/-! ## The loop -/

/-- A character from 128 on is a negative index. -/
theorem installLoop_eq_none (h : ∃ k ∈ keys, 128 ≤ k) :
    installLoop keys i retval indexcount index = none := by
  induction keys generalizing i retval indexcount index with
  | nil =>
    obtain ⟨k, hk, -⟩ := h
    cases hk
  | cons k keys ih =>
    rw [installLoop]
    by_cases hk : 128 ≤ k
    · rw [if_pos hk]
    · rw [if_neg hk]
      obtain ⟨k', hmem, hk'⟩ := h
      rcases List.mem_cons.mp hmem with rfl | hmem
      · exact absurd hk' hk
      · exact ih ⟨k', hmem, hk'⟩

/-- Different characters get their symbols, and the return value stays. -/
theorem installLoop_of_nodup (i : UInt8) (retval : Int) (index : UInt8 → UInt8)
    (hascii : ∀ k ∈ keys, k < 128) (hnodup : keys.Nodup)
    (hcount : ∀ k ∈ keys, indexcount k ≠ 1) :
    ∃ index', installLoop keys i retval indexcount index = some (retval, index') ∧
      (∀ j (hj : j < keys.length), index' keys[j] = i + .ofNat j) ∧
      ∀ k ∉ keys, index' k = index k := by
  -- the induction is on the characters that are left; none of them has been counted
  induction keys generalizing i indexcount index with
  | nil => exact ⟨index, rfl, nofun, fun _ _ => rfl⟩
  | cons k keys ih =>
    obtain ⟨hk, hascii⟩ := List.forall_mem_cons.mp hascii
    obtain ⟨hnew, hnodup⟩ := List.nodup_cons.mp hnodup
    obtain ⟨hcountk, hcount⟩ := List.forall_mem_cons.mp hcount
    have hcount' : ∀ k' ∈ keys, Function.update indexcount k 1 k' ≠ 1 := by
      intro k' hk'
      have hne : k' ≠ k := by
        rintro rfl
        exact hnew hk'
      rw [Function.update_of_ne hne]
      exact hcount k' hk'
    obtain ⟨index', hloop, hindex, hother⟩ :=
      ih (i + 1) (Function.update index k i) hascii hnodup hcount'
    refine ⟨index', ?_, ?_, ?_⟩
    · rw [installLoop, if_neg (UInt8.not_le.mpr hk), if_neg hcountk]
      exact hloop
    · intro j hj
      cases j with
      | zero =>
        -- the later characters leave the entry of the first one alone
        rw [List.getElem_cons_zero, hother k hnew, Function.update_self]
        simp
      | succ j =>
        rw [List.getElem_cons_succ, hindex j (by simpa using hj), UInt8.ofNat_add, UInt8.add_assoc,
          UInt8.add_comm 1]
        rfl
    · intro k' hk'
      obtain ⟨hne, hk'⟩ := List.ne_and_not_mem_of_not_mem_cons hk'
      rw [hother k' hk', Function.update_of_ne hne]

/-- A character that stands twice, or that has been counted before, makes it -1. -/
theorem installLoop_of_not_nodup (i : UInt8) (retval : Int) (indexcount index : UInt8 → UInt8)
    (hascii : ∀ k ∈ keys, k < 128)
    (h : ¬ (keys.Nodup ∧ ∀ k ∈ keys, indexcount k ≠ 1) ∨ retval = -1) :
    ∃ index', installLoop keys i retval indexcount index = some (-1, index') := by
  induction keys generalizing i retval indexcount index with
  | nil =>
    obtain rfl := h.resolve_left fun hnot => hnot ⟨List.nodup_nil, nofun⟩
    exact ⟨index, rfl⟩
  | cons k keys ih =>
    obtain ⟨hk, hascii⟩ := List.forall_mem_cons.mp hascii
    rw [installLoop, if_neg (UInt8.not_le.mpr hk)]
    apply ih _ _ _ _ hascii
    -- the first character has been counted before, or it counts for the rest
    by_cases hcount : indexcount k = 1
    · exact .inr (if_pos hcount)
    · rw [if_neg hcount]
      refine h.imp_left fun hnot hrest => hnot ⟨?_, ?_⟩
      · refine List.nodup_cons.mpr ⟨fun hmem => hrest.2 k hmem ?_, hrest.1⟩
        exact Function.update_self ..
      · refine List.forall_mem_cons.mpr ⟨hcount, fun k' hk' hone => hrest.2 k' hk' ?_⟩
        by_cases heq : k' = k
        · rw [heq, Function.update_self]
        · rw [Function.update_of_ne heq, hone]

/-! ## The alphabet that is installed -/

variable {reserved : Bytes} {c : Tables n} {dflt : Vector UInt8 n}

/-- An alphabet is installed, with its table. -/
theorem install_of_alphabet (hn : n ≤ 256) {keys : Vector UInt8 n}
    (h : Alphabet reserved keys.toList) (c : Tables n) (retval : Int) :
    ∃ c' : Tables n, c.install keys retval = some (retval, c') ∧ c'.keys = keys ∧
      c'.Invertible reserved ∧ ∀ k ∉ keys.toList, c'.index k = c.index k := by
  obtain ⟨index', hloop, hindex, hother⟩ := installLoop_of_nodup 0 retval c.index h.ascii
    h.nodup (show ∀ k ∈ keys.toList, (0 : UInt8) ≠ 1 by simp)
  refine ⟨⟨keys, index'⟩, by rw [install, hloop]; rfl, rfl, ⟨h, fun i hi => ?_⟩, hother⟩
  have hlt : i < keys.toList.length := by rwa [Vector.length_toList]
  have hi : (UInt8.ofNat i).toNat = i := by
    rw [UInt8.toNat_ofNat']
    omega
  have hkey := hindex i hlt
  rw [UInt8.zero_add] at hkey
  show index' (keys.toList.getD (UInt8.ofNat i).toNat 0) = _
  rw [hi, List.getD_eq_getElem _ _ hlt, hkey]

/-- What `SetKeys` does with a string that begins with an alphabet. -/
theorem setKeys_of_alphabet (hn : n ≤ 256) {keys : Bytes} (hlen : n ≤ keys.length)
    (h : Alphabet reserved (keys.take n)) (c : Tables n) :
    ∃ c' : Tables n, c.setKeys dflt keys = some (0, c') ∧ c'.keys.toList = keys.take n ∧
      c'.Invertible reserved ∧ ∀ k ∉ keys.take n, c'.index k = c.index k := by
  have hlong : ¬ keys.length < n := by omega
  obtain ⟨c', hinstall, hkeys, hinv, hother⟩ :=
    install_of_alphabet hn (show Alphabet reserved (firstKeys keys hlong).toList from h) c 0
  refine ⟨c', ?_, by rw [hkeys]; rfl, hinv, hother⟩
  rw [setKeys, dif_neg hlong, hinstall]

/-- What `SetKeys` does with the other strings. With a character from 128 on, it writes outside the
table; with a character that stands twice, it returns -1 and the rejected alphabet is installed. -/
theorem setKeys_of_not_alphabet {keys : Bytes} (hlen : n ≤ keys.length) (c : Tables n) :
    ((∃ k ∈ keys.take n, 128 ≤ k) → c.setKeys dflt keys = none) ∧
    ((∀ k ∈ keys.take n, k < 128) → ¬ (keys.take n).Nodup →
      ∃ c' : Tables n, c.setKeys dflt keys = some (-1, c') ∧ c'.keys.toList = keys.take n) := by
  have hlong : ¬ keys.length < n := by omega
  rw [setKeys, dif_neg hlong, install, show (firstKeys keys hlong).toList = keys.take n from rfl]
  refine ⟨fun hk => ?_, fun hascii hnodup => ?_⟩
  · rw [installLoop_eq_none hk]
    rfl
  · obtain ⟨index', hloop⟩ := installLoop_of_not_nodup 0 0 (fun _ => 0) c.index hascii
      (.inl fun h => hnodup h.1)
    exact ⟨⟨firstKeys keys hlong, index'⟩, by rw [hloop]; rfl, rfl⟩

/-- `SetKeys` leaves a codec that can be used exactly where the string is too short for an alphabet
or begins with one. -/
theorem validates_iff (hn : n ≤ 256) (hdflt : Alphabet reserved dflt.toList) (c : Tables n)
    (keys : Bytes) :
    c.Validates reserved dflt keys ↔ keys.length < n ∨ Alphabet reserved (keys.take n) := by
  by_cases hlen : keys.length < n
  · -- the default alphabet is installed
    obtain ⟨c', hinstall, hkeys, hinv, -⟩ := install_of_alphabet hn hdflt c (-1)
    refine ⟨fun _ => .inl hlen, fun _ => ⟨-1, c', ?_, .inr ⟨rfl, hinv, .inr hkeys⟩⟩⟩
    rw [setKeys, dif_pos hlen, hinstall]
  · rw [or_iff_right hlen]
    constructor
    · rintro ⟨retval, c', hset, hok⟩
      rw [setKeys, dif_neg hlen, install, Option.map_eq_some_iff] at hset
      obtain ⟨r, -, heq⟩ := hset
      obtain rfl := (Prod.mk.inj heq).2.symm
      -- whatever is returned, the first characters are the alphabet now
      rcases hok with ⟨-, hinv⟩ | ⟨-, hinv, -⟩
      · exact hinv.alphabet
      · exact hinv.alphabet
    · intro halphabet
      obtain ⟨c', hset, -, hinv, -⟩ := setKeys_of_alphabet hn (by omega) halphabet c
      exact ⟨0, c', hset, .inl ⟨rfl, hinv⟩⟩

/-! ## Symbols -/

section Symbol

variable {symbol mask : UInt8}

/-- A symbol is read back from its character. -/
theorem Invertible.index_key_of_fits (h : c.Invertible reserved) (hmask : mask.toNat < n)
    (hsymbol : Fits mask symbol) : c.index (c.key symbol) = symbol := by
  have hindex := h.index_key symbol.toNat (hsymbol.toNat_le.trans_lt hmask)
  rwa [UInt8.ofNat_toNat] at hindex

/-- The character of a symbol is one of the alphabet. -/
theorem key_mem (hmask : mask.toNat < n) (hsymbol : Fits mask symbol) :
    c.key symbol ∈ c.keys.toList := by
  have hlt : symbol.toNat < c.keys.toList.length := by
    rw [Vector.length_toList]
    exact hsymbol.toNat_le.trans_lt hmask
  rw [key, List.getD_eq_getElem _ _ hlt]
  exact List.getElem_mem hlt

end Symbol

end Tables

/-- Bytes with the same bits are the same. -/
theorem eq_of_bits {a b : UInt8} (h0 : a.toBitVec[0] = b.toBitVec[0])
    (h1 : a.toBitVec[1] = b.toBitVec[1]) (h2 : a.toBitVec[2] = b.toBitVec[2])
    (h3 : a.toBitVec[3] = b.toBitVec[3]) (h4 : a.toBitVec[4] = b.toBitVec[4])
    (h5 : a.toBitVec[5] = b.toBitVec[5]) (h6 : a.toBitVec[6] = b.toBitVec[6])
    (h7 : a.toBitVec[7] = b.toBitVec[7]) : a = b := by
  refine UInt8.toBitVec_inj.mp (BitVec.eq_of_getElem_eq fun i hi => ?_)
  match i, hi with
  | 0, _ => exact h0
  | 1, _ => exact h1
  | 2, _ => exact h2
  | 3, _ => exact h3
  | 4, _ => exact h4
  | 5, _ => exact h5
  | 6, _ => exact h6
  | 7, _ => exact h7

/-! ## Lengths -/

section Length

variable {len k : Nat}

/-- A length that fits into an `int`. -/
theorem toInt_ofNat (h : len < 2 ^ 31) : (Int32.ofNat len).toInt = len :=
  Int32.toInt_ofNat_of_lt h

/-- A length that fits is not negative. -/
theorem ofNat_le_zero_iff (h : len < 2 ^ 31) : Int32.ofNat len ≤ 0 ↔ len = 0 := by
  rw [Int32.le_iff_toInt_le, toInt_ofNat h, Int32.toInt_zero]
  omega

/-- Lengths that fit are told apart. -/
theorem ofNat_eq_iff (h : len < 2 ^ 31) (hk : k < 2 ^ 31) :
    Int32.ofNat len = Int32.ofNat k ↔ len = k := by
  rw [← Int32.toInt_inj, toInt_ofNat h, toInt_ofNat hk]
  omega

/-- A length that fits is not a smaller one. -/
theorem ofNat_ne_of_lt (h : len < 2 ^ 31) (hk : k < len) : Int32.ofNat len ≠ Int32.ofNat k := by
  rw [Ne, ofNat_eq_iff h (by omega)]
  omega

/-- A length that does not fit is taken for a negative one. -/
theorem ofNat_le_zero (h : 2 ^ 31 ≤ len) (hlt : len < 2 ^ 32) : Int32.ofNat len ≤ 0 := by
  have hsize : Int32.size = 4294967296 := rfl
  rw [Int32.le_iff_toInt_le, Int32.toInt_ofNat', Int32.toInt_zero, Int.bmod_def, hsize]
  split_ifs <;> omega

end Length

/-- `SetKeys` of both codecs does what it should exactly for strings that are too short for an
alphabet, and for those that begin with one: different characters below 128, and for `Base64` not
the padding. -/
theorem setKeys_validates_iff (base64 : Base64) (base32 : BASE32) (keys : Bytes) :
    (base64.Validates [61] kDefaultBase64Keys keys ↔
      keys.length < 64 ∨ Alphabet [61] (keys.take 64)) ∧
    (base32.Validates [] kDefaultBase32Keys keys ↔
      keys.length < 32 ∨ Alphabet [] (keys.take 32)) :=
  ⟨Tables.validates_iff (by decide) alphabet_default.1 base64 keys,
    Tables.validates_iff (by decide) alphabet_default.2 base32 keys⟩

/-- An alphabet of one character. -/
theorem not_validates_duplicates : ¬ ∀ (base64 : Base64) (keys : Bytes),
    base64.Validates [61] kDefaultBase64Keys keys := by
  intro h
  have hvalidates := h ⟨kDefaultBase64Keys, fun _ => 0⟩ (List.replicate 64 65)
  rcases (Tables.validates_iff (by decide) alphabet_default.1 _ _).mp hvalidates with hlen | halpha
  · exact absurd hlen (by decide)
  · exact absurd halpha.nodup (by decide)

end crypt

end MosqCluster
