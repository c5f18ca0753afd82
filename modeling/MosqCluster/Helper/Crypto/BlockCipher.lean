import Mathlib.Data.Bool.AllAny
import MosqCluster.Foundation.Blocks
import MosqCluster.Helper.Crypto.HexStr

/-!
# AES and DES

`helper/crypto/aes.cpp` and `helper/crypto/des.cpp`: strings are encrypted block by block and
written as hexadecimal text. A string that does not end with a block is filled up with bytes that
say how many they are; a string that does is left alone. `Decrypt` takes any last byte below 15 for
such a number.

The ciphers are those of OpenSSL and are a parameter. `DES_ncbc_encrypt` is called for one block at
a time with a vector of zeros, and is the cipher itself there.

## Main definitions

* `BlockCipher`: a cipher for blocks of one size;
* `AES.encrypt`, `AES.decrypt`, `DES.encrypt` and `DES.decrypt`, where `none` is an access outside a
  buffer, a call of the cipher under a schedule that has not been set, or the exception of a call of
  `erase` behind the end;
* `AES.RoundTrips` and `DES.RoundTrips`.

## Main results

* `decryptBlocks_encryptBlocks`: what is decrypted is the string and its filling;
* `cipher_roundTrips_iff`: when a string is read back;
* `isSome_decrypt_iff`: when a text is decrypted at all.
-/

namespace MosqCluster

namespace crypt

/-- A block cipher, under the key that the schedule was set with. -/
structure BlockCipher (size : Nat) where
  encrypt : Bytes → Bytes → Bytes
  decrypt : Bytes → Bytes → Bytes
  length_encrypt : ∀ key block, (encrypt key block).length = size
  length_decrypt : ∀ key block, (decrypt key block).length = size

/-- Decryption inverts encryption under the same key. -/
def BlockCipher.Inverts {size : Nat} (cipher : BlockCipher size) (keyLength : Nat) : Prop :=
  ∀ key block, key.length = keyLength → block.length = size →
    cipher.decrypt key (cipher.encrypt key block) = block

section Blocks

variable {size : Nat}

/-- `bytes` of `Encrypt`, which is resized to whole blocks before the filling is inserted. -/
def padded (size : Nat) (str : Bytes) : Bytes :=
  let total := str.length
  if total % size ≠ 0 then
    let less := size - total % size
    let resized := str ++ List.replicate (blockCount size total * size - total) 0
    resized.take total ++ List.replicate less (.ofNat less) ++ resized.drop total
  else str

/-- The loop of `Encrypt`. -/
def encryptBlocks (cipher : BlockCipher size) (key : Bytes) (str : Bytes) : Bytes :=
  (blockwise (fun rest => cipher.encrypt key (rest.take size)) size (blockCount size str.length)
    (padded size str)).flatten

/-- The loop of `Decrypt`. -/
def decryptBlocks (cipher : BlockCipher size) (key : Bytes) (bytes : Bytes) : Bytes :=
  (blockwise (fun rest => cipher.decrypt key (rest.take size)) size (bytes.length / size)
    bytes).flatten

/-- The end of `Decrypt`. -/
def unpad (out : Bytes) : Option Bytes :=
  match out.getLast? with
  | none => none
  | some pv =>
    if pv < 0xf then
      if out.length < pv.toNat then none else some (out.take (out.length - pv.toNat))
    else some out

end Blocks

/-! ## AES -/

namespace AES

/-- The key of the schedule, which is set for a key of 16 bytes only. -/
def schedule (key : Bytes) : Option Bytes := if key.length = 16 then some key else none

/-- `AES::Encrypt`. A vector that is not used is filled from the key and the zero behind it. -/
def encrypt (cipher : BlockCipher 16) (key str : Bytes) : Option Bytes :=
  if key.length + 1 < 16 then none
  else match schedule key with
    -- The schedule is not set, and is used for every block.
    | none => if str = [] then some [] else none
    | some aesKey => some (bytes2HexStr (encryptBlocks cipher aesKey str))

/-- `AES::Decrypt`. -/
def decrypt (cipher : BlockCipher 16) (key str : Bytes) : Option Bytes :=
  match hexStr2Bytes str with
  | none => none
  | some bytes =>
    if bytes.length % 16 ≠ 0 then some []
    else match schedule key with
      -- The schedule is not set and used for every block, or there is no last byte.
      | none => none
      | some aesKey => unpad (decryptBlocks cipher aesKey bytes)

/-- What is encrypted is decrypted. -/
def RoundTrips (cipher : BlockCipher 16) (key str : Bytes) : Prop :=
  ∃ text, encrypt cipher key str = some text ∧ decrypt cipher key text = some str

end AES

/-! ## DES -/

namespace DES

/-- The key of the schedule: eight bytes of the key and the zero behind it. -/
def schedule (key : Bytes) : Option Bytes :=
  if key.length + 1 < 8 then none else some ((key ++ [0]).take 8)

/-- `DES::Encrypt`. -/
def encrypt (cipher : BlockCipher 8) (key str : Bytes) : Option Bytes :=
  match schedule key with
  | none => none
  | some desKey => some (bytes2HexStr (encryptBlocks cipher desKey str))

/-- `DES::Decrypt`. -/
def decrypt (cipher : BlockCipher 8) (key str : Bytes) : Option Bytes :=
  match hexStr2Bytes str with
  | none => none
  | some bytes =>
    if bytes.length % 8 ≠ 0 then some []
    else match schedule key with
      | none => none
      | some desKey => unpad (decryptBlocks cipher desKey bytes)

/-- What is encrypted is decrypted. -/
def RoundTrips (cipher : BlockCipher 8) (key str : Bytes) : Prop :=
  ∃ text, encrypt cipher key str = some text ∧ decrypt cipher key text = some str

end DES

/-! ## Filling -/

section Blocks

variable {size : Nat}

/-- The bytes that fill the last block. -/
def filling (size : Nat) (str : Bytes) : Bytes :=
  if str.length % size ≠ 0 then
    List.replicate (size - str.length % size) (.ofNat (size - str.length % size))
  else []

/-- The string and its filling are whole blocks. -/
theorem length_append_filling (hsize : 0 < size) (str : Bytes) :
    (str ++ filling size str).length = size * blockCount size str.length := by
  have hdiv := Nat.div_add_mod str.length size
  have hlt := Nat.mod_lt str.length hsize
  rw [List.length_append, filling, blockCount, Nat.mul_add]
  by_cases hmod : str.length % size = 0
  · rw [if_neg (not_not.mpr hmod), if_pos hmod, List.length_nil]
    omega
  · rw [if_pos hmod, if_neg hmod, List.length_replicate]
    omega

/-- The blocks are taken from the string and its filling. -/
theorem take_padded (hsize : 0 < size) (str : Bytes) :
    (padded size str).take (size * blockCount size str.length) = str ++ filling size str := by
  have hlen := length_append_filling hsize str
  rw [padded, filling] at *
  -- the last block is filled up, or there is nothing to fill up
  split_ifs at * with hmod
  · dsimp only
    rw [List.take_left, List.drop_left, List.take_append_of_le_length (by omega)]
    exact List.take_of_length_le (by omega)
  · rw [List.append_nil] at hlen ⊢
    exact List.take_of_length_le (by omega)

/-- The encrypted blocks have the length of the string and its filling. -/
theorem length_encryptBlocks (cipher : BlockCipher size) (key : Bytes) (str : Bytes) :
    (encryptBlocks cipher key str).length = size * blockCount size str.length :=
  length_flatten_blockwise (fun _ => cipher.length_encrypt ..) _ _ _

/-- The decrypted blocks have the length of the encrypted ones. -/
theorem length_decryptBlocks (cipher : BlockCipher size) (key : Bytes) {bytes : Bytes}
    (h : bytes.length % size = 0) : (decryptBlocks cipher key bytes).length = bytes.length := by
  rw [decryptBlocks, length_flatten_blockwise fun _ => cipher.length_decrypt ..]
  exact Nat.mul_div_cancel' (Nat.dvd_of_mod_eq_zero h)

/-- What is decrypted is the string and its filling. -/
theorem decryptBlocks_encryptBlocks (hsize : 0 < size) {cipher : BlockCipher size} {key : Bytes}
    {keyLength : Nat} (hinv : cipher.Inverts keyLength) (hkey : key.length = keyLength)
    (str : Bytes) :
    decryptBlocks cipher key (encryptBlocks cipher key str) =
      str ++ filling size str := by
  -- only the bytes of the blocks matter, and they are the string and its filling
  rw [decryptBlocks, length_encryptBlocks, Nat.mul_div_cancel_left _ hsize, encryptBlocks,
    ← blockwise_take _ _ _ (padded size str), take_padded hsize]
  exact flatten_blockwise_flatten (fun _ => cipher.length_encrypt ..)
    (fun block hblock => hinv key block hkey hblock) (length_append_filling hsize str)

/-- A filling of fewer than 15 bytes is taken away, and a longer one is not. -/
theorem unpad_append_replicate {less : Nat} (hpos : 0 < less) (hbyte : less < 256) (str : Bytes) :
    unpad (str ++ List.replicate less (.ofNat less)) = some str ↔ less < 15 := by
  have hnat : (UInt8.ofNat less).toNat = less := by
    rw [UInt8.toNat_ofNat']
    omega
  have hlen : (str ++ List.replicate less (UInt8.ofNat less)).length = str.length + less := by
    rw [List.length_append, List.length_replicate]
  have hlast : (str ++ List.replicate less (UInt8.ofNat less)).getLast? =
      some (UInt8.ofNat less) := by
    rw [List.getLast?_append, List.getLast?_replicate, if_neg (by omega)]
    rfl
  have hlt : UInt8.ofNat less < 0xf ↔ less < 15 := by
    rw [UInt8.lt_iff_toNat_lt, hnat]
    rfl
  rw [unpad, hlast]
  dsimp only
  rw [hnat, hlen, if_neg (show ¬ str.length + less < less by omega), Nat.add_sub_cancel,
    List.take_left]
  -- the number is taken for a filling only below 15
  by_cases hless : less < 15
  · rw [if_pos (hlt.mpr hless)]
    exact iff_of_true rfl hless
  · rw [if_neg (fun h => hless (hlt.mp h))]
    refine iff_of_false (fun heq => ?_) hless
    have := congrArg List.length (Option.some.inj heq)
    omega

/-- A string without a filling is left alone where its last byte is zero, or at least 15. -/
theorem unpad_eq_self_iff (str : Bytes) :
    unpad str = some str ↔ str ≠ [] ∧ ∀ v, str.getLast? = some v → v = 0 ∨ 15 ≤ v := by
  rw [unpad]
  cases hlast : str.getLast? with
  | none =>
    refine iff_of_false nofun fun h => h.1 ?_
    exact List.getLast?_eq_none_iff.mp hlast
  | some v =>
    have hne : str ≠ [] := by
      rintro rfl
      cases hlast
    have hpos := List.length_pos_iff.mpr hne
    simp only [ne_eq, hne, not_false_eq_true, true_and, Option.some.injEq, forall_eq']
    -- a last byte below 15 is taken for the length of a filling, which changes the string unless it
    -- is zero
    by_cases hv : v < 0xf
    · rw [if_pos hv, or_iff_left (UInt8.not_le.mpr hv), ← UInt8.toNat_inj]
      by_cases hlong : str.length < v.toNat
      · rw [if_pos hlong]
        exact iff_of_false nofun (by rw [UInt8.toNat_zero]; omega)
      · rw [if_neg hlong, Option.some.injEq, UInt8.toNat_zero]
        constructor
        · intro heq
          have := congrArg List.length heq
          rw [List.length_take] at this
          omega
        · intro hzero
          rw [hzero, Nat.sub_zero, List.take_length]
    · rw [if_neg hv]
      exact iff_of_true rfl (.inr (UInt8.not_lt.mp hv))

/-- A string is what is left of itself and its filling. -/
theorem unpad_append_filling (hsize : 0 < size) (hbyte : size ≤ 256) (str : Bytes) :
    unpad (str ++ filling size str) = some str ↔
      str ≠ [] ∧ (str.length % size ≠ 0 → size - str.length % size < 15) ∧
        (str.length % size = 0 → ∀ v, str.getLast? = some v → v = 0 ∨ 15 ≤ v) := by
  have hlt := Nat.mod_lt str.length hsize
  rw [filling]
  by_cases hmod : str.length % size = 0
  · rw [if_neg (not_not.mpr hmod), List.append_nil, unpad_eq_self_iff]
    simp [hmod]
  · have hne : str ≠ [] := by
      rintro rfl
      exact hmod (Nat.zero_mod size)
    rw [if_pos hmod, unpad_append_replicate (by omega) (by omega)]
    simp [hmod, hne]

/-- What is left of a string, if anything is. -/
theorem isSome_unpad_iff (out : Bytes) :
    (unpad out).isSome ↔
      ∃ v, out.getLast? = some v ∧ (v.toNat ≤ out.length ∨ 15 ≤ v) := by
  rw [unpad]
  cases out.getLast? with
  | none => simp
  | some v =>
    simp only [Option.some.injEq, exists_eq_left']
    by_cases hv : v < 0xf
    · rw [if_pos hv, or_iff_left (UInt8.not_le.mpr hv)]
      split_ifs with hlong
      · exact iff_of_false nofun (by omega)
      · exact iff_of_true rfl (by omega)
    · rw [if_neg hv]
      exact iff_of_true rfl (.inr (UInt8.not_lt.mp hv))

end Blocks

/-! ## Round trips -/

theorem AES.schedule_of_length {key : Bytes} (h : key.length = 16) :
    AES.schedule key = some key := if_pos h

theorem DES.schedule_of_length {key : Bytes} (h : key.length = 8) :
    DES.schedule key = some key := by
  rw [DES.schedule, if_neg (by omega), List.take_left' h]

/-- What `AES::Decrypt` returns for an encrypted string. -/
theorem AES.roundTrips_iff_unpad {cipher : BlockCipher 16} (hinv : cipher.Inverts 16)
    {key : Bytes} (hkey : key.length = 16) (str : Bytes) :
    AES.RoundTrips cipher key str ↔ unpad (str ++ filling 16 str) = some str := by
  have hmod : (encryptBlocks cipher key str).length % 16 = 0 := by
    rw [length_encryptBlocks]
    exact Nat.mul_mod_right ..
  have hdecrypt : AES.decrypt cipher key (bytes2HexStr (encryptBlocks cipher key str)) =
      unpad (str ++ filling 16 str) := by
    rw [AES.decrypt, hexStr2Bytes_bytes2HexStr]
    dsimp only
    rw [if_neg (not_not.mpr hmod), AES.schedule_of_length hkey]
    dsimp only
    rw [decryptBlocks_encryptBlocks (by decide) hinv hkey]
  rw [AES.RoundTrips, AES.encrypt, if_neg (by omega), AES.schedule_of_length hkey]
  simp only [Option.some.injEq, exists_eq_left', hdecrypt]

/-- What `DES::Decrypt` returns for an encrypted string. -/
theorem DES.roundTrips_iff_unpad {cipher : BlockCipher 8} (hinv : cipher.Inverts 8)
    {key : Bytes} (hkey : key.length = 8) (str : Bytes) :
    DES.RoundTrips cipher key str ↔ unpad (str ++ filling 8 str) = some str := by
  have hmod : (encryptBlocks cipher key str).length % 8 = 0 := by
    rw [length_encryptBlocks]
    exact Nat.mul_mod_right ..
  have hdecrypt : DES.decrypt cipher key (bytes2HexStr (encryptBlocks cipher key str)) =
      unpad (str ++ filling 8 str) := by
    rw [DES.decrypt, hexStr2Bytes_bytes2HexStr]
    dsimp only
    rw [if_neg (not_not.mpr hmod), DES.schedule_of_length hkey]
    dsimp only
    rw [decryptBlocks_encryptBlocks (by decide) hinv hkey]
  rw [DES.RoundTrips, DES.encrypt, DES.schedule_of_length hkey]
  simp only [Option.some.injEq, exists_eq_left', hdecrypt]

/-- A string is read back exactly where it is not empty, its last block is not one byte long with
AES, and it does not end with a block whose last byte is from 1 to 14. -/
theorem cipher_roundTrips_iff (aes : BlockCipher 16) (des : BlockCipher 8) (haes : aes.Inverts 16)
    (hdes : des.Inverts 8) :
    (∀ key str, key.length = 16 →
      (AES.RoundTrips aes key str ↔ str ≠ [] ∧ str.length % 16 ≠ 1 ∧
        (str.length % 16 = 0 → ∀ v, str.getLast? = some v → v = 0 ∨ 15 ≤ v))) ∧
    (∀ key str, key.length = 8 →
      (DES.RoundTrips des key str ↔ str ≠ [] ∧
        (str.length % 8 = 0 → ∀ v, str.getLast? = some v → v = 0 ∨ 15 ≤ v))) := by
  constructor
  · intro key str hkey
    rw [AES.roundTrips_iff_unpad haes hkey, unpad_append_filling (by decide) (by decide)]
    refine and_congr_right fun _ => and_congr_left fun _ => ?_
    omega
  · intro key str hkey
    rw [DES.roundTrips_iff_unpad hdes hkey, unpad_append_filling (by decide) (by decide)]
    refine and_congr_right fun _ => and_iff_right ?_
    omega

/-- A cipher that encrypts the blocks of a table as the table says, and leaves the others alone. -/
def BlockCipher.ofPairs (size : Nat) (pairs : List (Bytes × Bytes)) : BlockCipher size :=
  let whole (block : Bytes) : Bytes :=
    if block.length = size then block else List.replicate size 0
  have hlength (block : Bytes) : (whole block).length = size := by
    dsimp only [whole]
    split_ifs with h
    · exact h
    · exact List.length_replicate
  { encrypt _ block := whole ((pairs.lookup block).getD block)
    decrypt _ block := whole (((pairs.map Prod.swap).lookup block).getD block)
    length_encrypt _ _ := hlength _
    length_decrypt _ _ := hlength _ }

/-- Blocks that are exchanged twice are the same. -/
theorem BlockCipher.ofPairs_inverts {size : Nat} {plain text : Bytes}
    (hplain : plain.length = size) (htext : text.length = size) (keyLength : Nat) :
    (BlockCipher.ofPairs size [(plain, text), (text, plain)]).Inverts keyLength := by
  intro key block _ hblock
  simp only [BlockCipher.ofPairs, List.map_cons, List.map_nil, Prod.swap_prod_mk, List.lookup_cons,
    List.lookup_nil]
  -- the block is the first of the two, the second, or neither
  by_cases hfirst : block = plain
  · subst hfirst
    simp [htext, hblock]
  · by_cases hsecond : block = text
    · subst hsecond
      simp [beq_false_of_ne hfirst, beq_false_of_ne (Ne.symm hfirst), hplain, hblock]
    · simp [beq_false_of_ne hfirst, beq_false_of_ne hsecond, hblock]

/-- A key, a string and its encryption with AES. Two bytes fill up the block. -/
def aesVector : Bytes × Bytes × Bytes :=
  ([0x00, 0x01, 0x02, 0x03, 0x04, 0x05, 0x06, 0x07,
      0x08, 0x09, 0x0a, 0x0b, 0x0c, 0x0d, 0x0e, 0x0f],
    bytes "mosquitto_user",
    [0x6c, 0x44, 0x30, 0x00, 0x87, 0x53, 0xff, 0xec,
      0x6b, 0x8f, 0xfb, 0xeb, 0x2d, 0x48, 0x2c, 0xa1])

/-- A key, a string and its encryption with DES. One byte fills up the block. -/
def desVector : Bytes × Bytes × Bytes :=
  ([0x13, 0x34, 0x57, 0x79, 0x9b, 0xbc, 0xdf, 0xf1],
    bytes "cluster",
    [0x07, 0x2f, 0xe9, 0x7c, 0x81, 0xd5, 0x2f, 0x58])

/-- A cipher that does with the block of `aesVector` what AES does. -/
def aesOfVector : BlockCipher 16 :=
  .ofPairs 16 [(aesVector.2.1 ++ [2, 2], aesVector.2.2), (aesVector.2.2, aesVector.2.1 ++ [2, 2])]

/-- A cipher that does with the block of `desVector` what DES does. -/
def desOfVector : BlockCipher 8 :=
  .ofPairs 8 [(desVector.2.1 ++ [1], desVector.2.2), (desVector.2.2, desVector.2.1 ++ [1])]

/-- The blocks of the two ciphers are exchanged. -/
theorem inverts_vectors : aesOfVector.Inverts 16 ∧ desOfVector.Inverts 8 :=
  ⟨BlockCipher.ofPairs_inverts (by decide) (by decide) 16,
    BlockCipher.ofPairs_inverts (by decide) (by decide) 8⟩

/-- Strings that are filled up to one block are read back. -/
theorem roundTrips_vectors :
    AES.RoundTrips aesOfVector aesVector.1 aesVector.2.1 ∧
      DES.RoundTrips desOfVector desVector.1 desVector.2.1 := by
  have h := cipher_roundTrips_iff _ _ inverts_vectors.1 inverts_vectors.2
  have hlast : aesVector.2.1.length % 16 ≠ 0 ∧ desVector.2.1.length % 8 ≠ 0 := by decide
  refine ⟨(h.1 _ _ rfl).mpr ⟨by decide, by decide, ?_⟩, (h.2 _ _ rfl).mpr ⟨by decide, ?_⟩⟩
  · exact fun hmod => absurd hmod hlast.1
  · exact fun hmod => absurd hmod hlast.2

/-- A string of one byte is not read back with AES. -/
theorem not_roundTrips_one : ¬ ∀ (aes : BlockCipher 16) (des : BlockCipher 8), aes.Inverts 16 →
    des.Inverts 8 → (∀ key str, key.length = 16 → AES.RoundTrips aes key str) ∧
      ∀ key str, key.length = 8 → DES.RoundTrips des key str := by
  intro h
  have hround := (h _ _ inverts_vectors.1 inverts_vectors.2).1 aesVector.1 (bytes "m") rfl
  rw [AES.roundTrips_iff_unpad inverts_vectors.1 rfl] at hround
  exact absurd hround (by decide)

/-! ## Untrusted text -/

/-- Enough bytes for every number below 15. -/
theorem isSome_unpad_of_le {out : Bytes} (h : 14 ≤ out.length) : (unpad out).isSome := by
  rw [isSome_unpad_iff]
  cases hlast : out.getLast? with
  | none =>
    rw [List.getLast?_eq_none_iff.mp hlast] at h
    exact absurd h (by decide)
  | some v =>
    refine ⟨v, rfl, ?_⟩
    by_cases hv : 15 ≤ v
    · exact .inr hv
    · have := UInt8.lt_iff_toNat_lt.mp (UInt8.not_le.mp hv)
      have hfifteen : (15 : UInt8).toNat = 15 := rfl
      exact .inl (by omega)

/-- A single block is decrypted as it is. -/
theorem decryptBlocks_single {size : Nat} (hsize : 0 < size) (cipher : BlockCipher size)
    (key : Bytes) {bytes : Bytes} (h : bytes.length = size) :
    decryptBlocks cipher key bytes = cipher.decrypt key bytes := by
  rw [decryptBlocks, h, Nat.div_self hsize]
  show [cipher.decrypt key (bytes.take size)].flatten = _
  rw [List.flatten_singleton, List.take_of_length_le (Nat.le_of_eq h)]

/-- A single block of DES leaves a string where its last byte is not a number from 9 to 14. -/
theorem isSome_unpad_single (cipher : BlockCipher 8) (key : Bytes) (block : Bytes) :
    (unpad (cipher.decrypt key block)).isSome ↔
      ∀ v, (cipher.decrypt key block).getLast? = some v → v ≤ 8 ∨ 15 ≤ v := by
  have hlen := cipher.length_decrypt key block
  rw [isSome_unpad_iff, hlen]
  cases hlast : (cipher.decrypt key block).getLast? with
  | none =>
    rw [List.getLast?_eq_none_iff.mp hlast] at hlen
    exact absurd hlen (by decide)
  | some v =>
    simp only [Option.some.injEq, exists_eq_left', forall_eq', UInt8.le_iff_toNat_le]
    rfl

/-- A key of DES is read from seven bytes on. -/
theorem DES.isSome_schedule_iff (key : Bytes) : (DES.schedule key).isSome ↔ 7 ≤ key.length := by
  rw [DES.schedule]
  split_ifs with hshort
  · exact iff_of_false nofun (by omega)
  · exact iff_of_true rfl (by omega)

/-- What `AES::Decrypt` makes of these bytes. -/
theorem AES.isSome_decrypt_of_hexStr2Bytes {aes : BlockCipher 16} {key str bytes : Bytes}
    (hbytes : hexStr2Bytes str = some bytes) :
    (AES.decrypt aes key str).isSome ↔
      bytes.length % 16 ≠ 0 ∨ key.length = 16 ∧ bytes.length ≠ 0 := by
  rw [AES.decrypt, hbytes]
  dsimp only
  by_cases hmod : bytes.length % 16 = 0
  · rw [if_neg (not_not.mpr hmod), or_iff_right (not_not.mpr hmod)]
    by_cases hkey : key.length = 16
    · rw [AES.schedule_of_length hkey, and_iff_right hkey]
      dsimp only
      have hout := length_decryptBlocks aes key hmod
      by_cases hzero : bytes.length = 0
      · rw [List.length_eq_zero_iff.mp (hout.trans hzero)]
        exact iff_of_false nofun (not_not.mpr hzero)
      · exact iff_of_true (isSome_unpad_of_le (by omega)) hzero
    · rw [AES.schedule, if_neg hkey]
      exact iff_of_false nofun (fun hcond => hkey hcond.1)
  · rw [if_pos hmod]
    exact iff_of_true rfl (.inl hmod)

/-- What is left of whole blocks of DES, if anything is. -/
theorem DES.isSome_unpad_decryptBlocks {des : BlockCipher 8} (desKey : Bytes) {bytes : Bytes}
    (hmod : bytes.length % 8 = 0) :
    (unpad (decryptBlocks des desKey bytes)).isSome ↔
      bytes.length ≠ 0 ∧ (bytes.length = 8 → ∀ v,
        (des.decrypt desKey bytes).getLast? = some v → v ≤ 8 ∨ 15 ≤ v) := by
  have hout := length_decryptBlocks des desKey hmod
  by_cases hzero : bytes.length = 0
  · rw [List.length_eq_zero_iff.mp (hout.trans hzero)]
    exact iff_of_false nofun (fun hcond => hcond.1 hzero)
  rw [and_iff_right hzero]
  by_cases hsingle : bytes.length = 8
  · rw [decryptBlocks_single (by decide) des _ hsingle, isSome_unpad_single,
      forall_prop_of_true hsingle]
  · -- two blocks hold every number below 15
    exact iff_of_true (isSome_unpad_of_le (by omega)) (fun heq => absurd heq hsingle)

/-- A text of ASCII characters is decrypted with AES exactly where it does not have whole blocks, or
the key has 16 bytes and the text is not empty. With DES, it is decrypted where it does not have
whole blocks, or the key is long enough, the text is not empty, and a single block does not end in a
number that is greater than it and below 15. -/
theorem isSome_decrypt_iff (aes : BlockCipher 16) (des : BlockCipher 8) (key str : Bytes)
    (h : ∀ b ∈ str, b < 128) :
    ((AES.decrypt aes key str).isSome ↔ (str.length + 1) / 2 % 16 ≠ 0 ∨
      key.length = 16 ∧ str ≠ []) ∧
    ((DES.decrypt des key str).isSome ↔ (str.length + 1) / 2 % 8 ≠ 0 ∨
      7 ≤ key.length ∧ str ≠ [] ∧ ((str.length + 1) / 2 = 8 →
        ∀ bytes desKey v, hexStr2Bytes str = some bytes → DES.schedule key = some desKey →
          (des.decrypt desKey bytes).getLast? = some v → v ≤ 8 ∨ 15 ≤ v)) := by
  obtain ⟨bytes, hbytes⟩ : ∃ bytes, hexStr2Bytes str = some bytes := ⟨_, hexStr2Bytes_eq h⟩
  have hlen := length_of_hexStr2Bytes h hbytes
  have hne : str ≠ [] ↔ bytes.length ≠ 0 := by
    rw [hlen, ← List.length_pos_iff]
    omega
  constructor
  · rw [AES.isSome_decrypt_of_hexStr2Bytes hbytes, hne, hlen]
  · rw [DES.decrypt, hbytes, hne, ← hlen]
    dsimp only
    by_cases hmod : bytes.length % 8 = 0
    · rw [if_neg (not_not.mpr hmod), or_iff_right (not_not.mpr hmod), ← DES.isSome_schedule_iff]
      cases hkey : DES.schedule key with
      | none => exact iff_of_false nofun (fun hcond => absurd hcond.1 nofun)
      | some desKey =>
        dsimp only
        rw [DES.isSome_unpad_decryptBlocks desKey hmod, and_iff_right Option.isSome_some]
        refine and_congr_right fun _ => ⟨?_, ?_⟩
        · intro hall hsingle block key' v hblock hkey' hv
          obtain rfl := Option.some.inj hblock
          obtain rfl := Option.some.inj hkey'
          exact hall hsingle v hv
        · intro hall hsingle v hv
          exact hall hsingle bytes desKey v rfl rfl hv
    · rw [if_pos hmod]
      exact iff_of_true rfl (.inl hmod)

/-- A cipher that does with the two blocks of `aesVector` what DES does under the first half of the
key. -/
def desOfAesVector : BlockCipher 8 :=
  .ofPairs 8
    [([0xe8, 0xd4, 0xf0, 0xe7, 0xa6, 0x21, 0xb5, 0x0d], aesVector.2.2.take 8),
      ([0xff, 0x10, 0xaf, 0x2d, 0x74, 0x0a, 0xe2, 0xcf], aesVector.2.2.drop 8)]

/-- The encrypted strings are decrypted with both classes: one block with AES that ends with its
filling and two with DES that end with another byte, and one block with DES that ends with its
filling and is no block of AES. -/
theorem isSome_decrypt_vectors :
    ((AES.decrypt aesOfVector aesVector.1 (bytes2HexStr aesVector.2.2)).isSome ∧
      (DES.decrypt desOfAesVector aesVector.1 (bytes2HexStr aesVector.2.2)).isSome) ∧
    (AES.decrypt aesOfVector desVector.1 (bytes2HexStr desVector.2.2)).isSome ∧
      (DES.decrypt desOfVector desVector.1 (bytes2HexStr desVector.2.2)).isSome := by
  have hlong := isSome_decrypt_iff aesOfVector desOfAesVector aesVector.1
    (bytes2HexStr aesVector.2.2) (List.all_iff_forall_prop.mp (by decide))
  have hshort := isSome_decrypt_iff aesOfVector desOfVector desVector.1
    (bytes2HexStr desVector.2.2) (List.all_iff_forall_prop.mp (by decide))
  refine ⟨⟨hlong.1.mpr (.inr (by decide)), hlong.2.mpr (.inr ⟨by decide, by decide, ?_⟩)⟩,
    hshort.1.mpr (.inl (by decide)), hshort.2.mpr (.inr ⟨by decide, by decide, ?_⟩)⟩
  · exact fun hsingle => absurd hsingle (by decide)
  · rintro - block desKey v hblock hkey hv
    -- the byte that fills the block up
    obtain rfl : desVector.2.2 = block := Option.some.inj hblock
    obtain rfl : desVector.1 = desKey := Option.some.inj hkey
    obtain rfl : 1 = v := Option.some.inj hv
    exact .inl (by decide)

/-- An empty text is not decrypted. -/
theorem not_isSome_decrypt_empty : ¬ ∀ (aes : BlockCipher 16) (des : BlockCipher 8)
    (key str : Bytes), (∀ b ∈ str, b < 128) →
      (AES.decrypt aes key str).isSome ∧ (DES.decrypt des key str).isSome := by
  intro h
  have hsome := (h aesOfVector desOfVector aesVector.1 [] nofun).1
  exact absurd hsome (by decide)

end crypt

end MosqCluster
