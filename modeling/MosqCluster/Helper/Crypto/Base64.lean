import MosqCluster.Foundation.Blocks
import MosqCluster.Helper.Crypto.Alphabet

/-!
# Base64

`helper/crypto/base64.cpp`. The rest of the string is passed to `base64_encrypt` with its length
as an `int`, so that a string of 2 GiB or more has blocks that are not encoded and stay zero.

## Main definitions

* `base64Encrypt` and `base64Decrypt`: one block;
* `Base64.encrypt` and `Base64.decrypt`;
* `Base64.RoundTrips`: with every alphabet, a string is read back, from a text of the right length.

## Main results

* `Base64.decrypt_encrypt`: this is so for strings below 2 GiB;
* `base64_roundTrips_iff`: and for no other.
-/

namespace MosqCluster

namespace crypt

/-- `base64_encrypt`: the return value, and `out`. -/
def base64Encrypt (keys : UInt8 → UInt8) (input : Bytes) (inlen : Int32) : Int × Bytes :=
  let b (i : Nat) : UInt8 := input.getD i 0
  if inlen ≤ 0 then (0, [0, 0, 0, 0])
  else if inlen = 1 then (2, [keys (b 0 >>> 2), keys ((b 0 &&& 0x3) <<< 4), 61, 61])
  else if inlen = 2 then
    (1, [keys (b 0 >>> 2), keys (((b 0 &&& 0x3) <<< 4) ||| (b 1 >>> 4)),
      keys ((b 1 &&& 0xf) <<< 2), 61])
  else
    (0, [keys (b 0 >>> 2), keys (((b 0 &&& 0x3) <<< 4) ||| (b 1 >>> 4)),
      keys (((b 1 &&& 0xf) <<< 2) ||| (b 2 >>> 6)), keys (b 2 &&& 0x3f)])

/-- `base64_decrypt`: the return value, and `out`. -/
def base64Decrypt (index : UInt8 → UInt8) (input : Bytes) : Nat × Bytes :=
  let b (i : Nat) : UInt8 := input.getD i 0
  let out0 := (index (b 0) <<< 2) ||| (index (b 1) >>> 4)
  if b 2 = 61 then (1, [out0, 0, 0])
  else
    let out1 := ((index (b 1) &&& 0xf) <<< 4) ||| (index (b 2) >>> 2)
    if b 3 = 61 then (2, [out0, out1, 0])
    else (3, [out0, out1, ((index (b 2) &&& 0x3) <<< 6) ||| (index (b 3) &&& 0x3f)])

namespace Base64

/-- The text of a block. -/
def encryptBlock (c : Base64) (rest : Bytes) : Bytes :=
  (base64Encrypt c.key rest (Int32.ofNat rest.length)).2

/-- `Base64::Encrypt`. -/
def encrypt (c : Base64) (str : Bytes) : Bytes :=
  if str.isEmpty then []
  else (blockwise c.encryptBlock 3 (blockCount 3 str.length) str).flatten

/-- `Base64::Decrypt`. -/
def decrypt (c : Base64) (str : Bytes) : Bytes :=
  if str.length % 4 ≠ 0 then []
  else joinParts (blockwise (base64Decrypt c.index) 4 (str.length / 4) str)

/-- With every alphabet that `SetKeys` installs, whatever the tables have been before, the text has
the right length, and the string is read back from it. -/
def RoundTrips (str : Bytes) : Prop :=
  ∀ (c : Base64) (keys : Bytes), keys.length = 64 → Alphabet [61] keys →
    ∃ c', c.setKeys keys = some (0, c') ∧
      (c'.encrypt str).length = 4 * ((str.length + 2) / 3) ∧ c'.decrypt (c'.encrypt str) = str

/-! ## Blocks -/

variable {c : Base64}

/-- A block of three bytes. -/
theorem encryptBlock_three (x y z : UInt8) (rest : Bytes)
    (h : (x :: y :: z :: rest).length < 2 ^ 31) :
    c.encryptBlock (x :: y :: z :: rest) =
      [c.key (x >>> 2), c.key (((x &&& 0x3) <<< 4) ||| (y >>> 4)),
        c.key (((y &&& 0xf) <<< 2) ||| (z >>> 6)), c.key (z &&& 0x3f)] := by
  have hpos : ¬ Int32.ofNat (x :: y :: z :: rest).length ≤ 0 := by
    rw [ofNat_le_zero_iff h]
    simp
  have hone : Int32.ofNat (x :: y :: z :: rest).length ≠ 1 :=
    ofNat_ne_of_lt h (by simp)
  have htwo : Int32.ofNat (x :: y :: z :: rest).length ≠ 2 :=
    ofNat_ne_of_lt h (by simp)
  rw [encryptBlock, base64Encrypt]
  simp only [if_neg hpos, if_neg hone, if_neg htwo]
  rfl

/-- A block of two bytes. -/
theorem encryptBlock_two (x y : UInt8) :
    c.encryptBlock [x, y] =
      [c.key (x >>> 2), c.key (((x &&& 0x3) <<< 4) ||| (y >>> 4)), c.key ((y &&& 0xf) <<< 2), 61] :=
  rfl

/-- A block of one byte. -/
theorem encryptBlock_one (x : UInt8) :
    c.encryptBlock [x] = [c.key (x >>> 2), c.key ((x &&& 0x3) <<< 4), 61, 61] :=
  rfl

/-- A symbol is read back from its character. -/
theorem index_key_sextet (hinv : c.Invertible [61]) {p : UInt8} (hp : Fits 0x3f p) :
    c.index (c.key p) = p := hinv.index_key_of_fits (by decide) hp

/-- The padding is the character of no symbol. -/
theorem key_sextet_ne (hinv : c.Invertible [61]) {p : UInt8} (hp : Fits 0x3f p) :
    c.key p ≠ 61 := by
  intro heq
  exact hinv.alphabet.free _ (Tables.key_mem (by decide) hp) (by rw [heq]; decide)

/-- A text of four symbols. -/
theorem base64Decrypt_four (hinv : c.Invertible [61]) {p q r s : UInt8} (hp : Fits 0x3f p)
    (hq : Fits 0x3f q) (hr : Fits 0x3f r) (hs : Fits 0x3f s) (text : Bytes) :
    base64Decrypt c.index (c.key p :: c.key q :: c.key r :: c.key s :: text) =
      (3, [(p <<< 2) ||| (q >>> 4), ((q &&& 0xf) <<< 4) ||| (r >>> 2),
        ((r &&& 0x3) <<< 6) ||| (s &&& 0x3f)]) := by
  simp only [base64Decrypt, List.getD_cons_zero, List.getD_cons_succ,
    if_neg (key_sextet_ne hinv hr), if_neg (key_sextet_ne hinv hs), index_key_sextet hinv hp,
    index_key_sextet hinv hq, index_key_sextet hinv hr, index_key_sextet hinv hs]

/-- A text of three symbols and the padding. -/
theorem base64Decrypt_three (hinv : c.Invertible [61]) {p q r : UInt8} (hp : Fits 0x3f p)
    (hq : Fits 0x3f q) (hr : Fits 0x3f r) :
    base64Decrypt c.index [c.key p, c.key q, c.key r, 61] =
      (2, [(p <<< 2) ||| (q >>> 4), ((q &&& 0xf) <<< 4) ||| (r >>> 2), 0]) := by
  simp only [base64Decrypt, List.getD_cons_zero, List.getD_cons_succ,
    if_neg (key_sextet_ne hinv hr), if_true,
    index_key_sextet hinv hp, index_key_sextet hinv hq, index_key_sextet hinv hr]

/-- A text of two symbols and the padding. -/
theorem base64Decrypt_two (hinv : c.Invertible [61]) {p q : UInt8} (hp : Fits 0x3f p)
    (hq : Fits 0x3f q) :
    base64Decrypt c.index [c.key p, c.key q, 61, 61] = (1, [(p <<< 2) ||| (q >>> 4), 0, 0]) := by
  simp only [base64Decrypt, List.getD_cons_zero, List.getD_cons_succ, if_true,
    index_key_sextet hinv hp, index_key_sextet hinv hq]

/-! ## Bits -/

/-- The symbols have six bits. -/
theorem sextets (x y : UInt8) :
    Fits 0x3f (x >>> 2) ∧ Fits 0x3f (((x &&& 0x3) <<< 4) ||| (y >>> 4)) ∧
      Fits 0x3f (((x &&& 0xf) <<< 2) ||| (y >>> 6)) := by
  refine ⟨?_, ?_, ?_⟩ <;> apply eq_of_bits <;> simp

/-- Without the bits of a further byte. -/
theorem sextets_last (x : UInt8) :
    Fits 0x3f ((x &&& 0x3) <<< 4) ∧ Fits 0x3f ((x &&& 0xf) <<< 2) ∧ Fits 0x3f (x &&& 0x3f) := by
  refine ⟨?_, ?_, ?_⟩
  · apply eq_of_bits <;> simp
  · apply eq_of_bits <;> simp
  · rw [Fits, UInt8.and_assoc, UInt8.and_self]

/-- The bits of three bytes are put together again. -/
theorem join_sextets (x y z : UInt8) :
    ((x >>> 2) <<< 2) ||| ((((x &&& 0x3) <<< 4) ||| (y >>> 4)) >>> 4) = x ∧
    (((((x &&& 0x3) <<< 4) ||| (y >>> 4)) &&& 0xf) <<< 4) |||
      ((((y &&& 0xf) <<< 2) ||| (z >>> 6)) >>> 2) = y ∧
    (((((y &&& 0xf) <<< 2) ||| (z >>> 6)) &&& 0x3) <<< 6) ||| ((z &&& 0x3f) &&& 0x3f) = z := by
  refine ⟨?_, ?_, ?_⟩ <;> apply eq_of_bits <;> simp

/-- The bits of the last byte are put together again. -/
theorem join_sextets_last (x y : UInt8) :
    ((x >>> 2) <<< 2) ||| (((x &&& 0x3) <<< 4) >>> 4) = x ∧
    (((((x &&& 0x3) <<< 4) ||| (y >>> 4)) &&& 0xf) <<< 4) ||| (((y &&& 0xf) <<< 2) >>> 2) = y := by
  refine ⟨?_, ?_⟩ <;> apply eq_of_bits <;> simp

/-! ## The round trip -/

theorem encrypt_eq (c : Base64) (str : Bytes) :
    c.encrypt str = (blockwise c.encryptBlock 3 (blockCount 3 str.length) str).flatten := by
  cases str with
  | nil => rfl
  | cons x str => rfl

/-- The text is that of the first block and that of the rest. -/
theorem encrypt_append {b : Bytes} (hb : b.length = 3) (rest : Bytes) :
    c.encrypt (b ++ rest) = c.encryptBlock (b ++ rest) ++ c.encrypt rest := by
  rw [encrypt_eq, encrypt_eq, blockwise_append (by decide) hb, List.flatten_cons]

/-- A text of at most one block. -/
theorem encrypt_last {str : Bytes} (hpos : 0 < str.length) (hle : str.length ≤ 3) :
    c.encrypt str = c.encryptBlock str := by
  rw [encrypt_eq, blockwise_last hpos hle, List.flatten_singleton]

/-- The parts of a text, block by block. -/
def decryptParts (c : Base64) (text : Bytes) : List (Nat × Bytes) :=
  blockwise (base64Decrypt c.index) 4 (blockCount 4 text.length) text

/-- A text of whole blocks is read block by block. -/
theorem decrypt_eq {text : Bytes} (h : text.length % 4 = 0) :
    c.decrypt text = joinParts (c.decryptParts text) := by
  rw [decrypt, if_neg (by omega), decryptParts, blockCount_of_mod_eq_zero h]

/-- The parts of a text are the first one and those of the rest. -/
theorem decryptParts_append {block : Bytes} (hblock : block.length = 4) (text : Bytes) :
    c.decryptParts (block ++ text) =
      base64Decrypt c.index (block ++ text) :: c.decryptParts text := by
  rw [decryptParts, blockwise_append (by decide) hblock, decryptParts]

/-- A text of one block has one part. -/
theorem decrypt_block {block : Bytes} (hblock : block.length = 4) :
    c.decrypt block =
      (base64Decrypt c.index block).2.take (base64Decrypt c.index block).1 := by
  rw [decrypt_eq (by omega), decryptParts, blockwise_last (by omega) (by omega),
    joinParts_singleton]

/-- The text of a string below 2 GiB, and what is read from it. -/
theorem decrypt_encrypt_aux (hinv : c.Invertible [61]) (str : Bytes) (h : str.length < 2 ^ 31) :
    (c.encrypt str).length = 4 * blockCount 3 str.length ∧ c.decrypt (c.encrypt str) = str := by
  -- the induction is on the blocks; the length comes along, as a text of whole blocks is read
  induction str using block_induction (show 0 < 3 by decide) with
  | nil => simp [encrypt, decrypt, blockwise, joinParts]
  | last str hpos hlt =>
    have hlen : str.length = 1 ∨ str.length = 2 := by omega
    rw [blockCount_of_le hpos (by omega), encrypt_last hpos (by omega)]
    rcases hlen with hlen | hlen
    · obtain ⟨x, rfl⟩ := List.length_eq_one_iff.mp hlen
      rw [encryptBlock_one, decrypt_block rfl,
        base64Decrypt_two hinv (sextets x 0).1 (sextets_last x).1, (join_sextets_last x 0).1]
      exact ⟨rfl, rfl⟩
    · obtain ⟨x, y, rfl⟩ := List.length_eq_two.mp hlen
      rw [encryptBlock_two, decrypt_block rfl,
        base64Decrypt_three hinv (sextets x y).1 (sextets x y).2.1 (sextets_last y).2.1,
        (join_sextets x y 0).1, (join_sextets_last x y).2]
      exact ⟨rfl, rfl⟩
  | block b rest hb ih =>
    obtain ⟨x, y, z, rfl⟩ := List.length_eq_three.mp hb
    have hrest : rest.length < 2 ^ 31 := by
      rw [List.length_append] at h
      omega
    obtain ⟨hlen, hback⟩ := ih hrest
    have hblock := encryptBlock_three (c := c) x y z rest h
    have htext : (c.encrypt ([x, y, z] ++ rest)).length = 4 * blockCount 3 (3 + rest.length) := by
      rw [encrypt_append hb, List.length_append, hlen, blockCount_add (by decide)]
      simp only [List.cons_append, List.nil_append, hblock, List.length_cons, List.length_nil]
      omega
    refine ⟨by rw [htext, List.length_append, hb], ?_⟩
    rw [decrypt_eq (by omega)] at hback ⊢
    rw [encrypt_append hb, show [x, y, z] ++ rest = x :: y :: z :: rest from rfl, hblock,
      decryptParts_append rfl]
    simp only [List.cons_append, List.nil_append]
    rw [base64Decrypt_four hinv (sextets x y).1 (sextets x y).2.1 (sextets y z).2.2
      (sextets_last z).2.2, (join_sextets x y z).1, (join_sextets x y z).2.1,
      (join_sextets x y z).2.2, joinParts_cons_of_eq rfl, hback]
    rfl

/-- Strings below 2 GiB are read back. -/
theorem decrypt_encrypt (hinv : c.Invertible [61]) (str : Bytes) (h : str.length < 2 ^ 31) :
    (c.encrypt str).length = 4 * ((str.length + 2) / 3) ∧ c.decrypt (c.encrypt str) = str := by
  obtain ⟨hlen, hback⟩ := decrypt_encrypt_aux hinv str h
  refine ⟨?_, hback⟩
  rw [hlen, blockCount]
  split_ifs <;> omega

/-! ## Strings of 2 GiB and more -/

/-- A block whose length is taken for a negative one is not encoded. -/
theorem encryptBlock_of_le {rest : Bytes} (h : 2 ^ 31 ≤ rest.length) (hlt : rest.length < 2 ^ 32) :
    c.encryptBlock rest = [0, 0, 0, 0] := by
  rw [encryptBlock, base64Encrypt]
  simp only [if_pos (ofNat_le_zero h hlt)]

/-- Every block has a text of four characters. -/
theorem length_encryptBlock (rest : Bytes) : (c.encryptBlock rest).length = 4 := by
  rw [encryptBlock, base64Encrypt]
  dsimp only
  split_ifs <;> rfl

/-- Every block of text has room for three bytes. -/
theorem length_base64Decrypt (index : UInt8 → UInt8) (text : Bytes) :
    (base64Decrypt index text).2.length = 3 := by
  rw [base64Decrypt]
  dsimp only
  split_ifs <;> rfl

/-- A block that is not encoded is read back as what the table of the decoder has for a zero. -/
theorem head?_of_decrypt_encrypt {str : Bytes} {i : Nat} (h : 2 ^ 31 ≤ str.length - 3 * i)
    (hlt : str.length - 3 * i < 2 ^ 32) (hback : c.decrypt (c.encrypt str) = str) :
    (str.drop (3 * i)).head? = some ((c.index 0 <<< 2) ||| (c.index 0 >>> 4)) := by
  have hlen : (str.drop (3 * i)).length = str.length - 3 * i := List.length_drop
  have hcover := le_mul_blockCount (show 0 < 3 by decide) str.length
  obtain ⟨count, hcount⟩ : ∃ count, blockCount 3 str.length - i = count + 1 :=
    ⟨blockCount 3 str.length - i - 1, by omega⟩
  -- the text from this block on
  have htext : (c.encrypt str).drop (4 * i) = [0, 0, 0, 0] ++
      (blockwise c.encryptBlock 3 count ((str.drop (3 * i)).drop 3)).flatten := by
    rw [encrypt_eq, drop_flatten_blockwise length_encryptBlock, hcount, blockwise,
      List.flatten_cons, encryptBlock_of_le (by omega) (by omega)]
  have hlength : (c.encrypt str).length = 4 * blockCount 3 str.length := by
    rw [encrypt_eq, length_flatten_blockwise length_encryptBlock]
  -- the bytes that are read from there on
  have hread : (((c.decryptParts (c.encrypt str)).map Prod.snd).flatten.drop (3 * i)).head? =
      some ((c.index 0 <<< 2) ||| (c.index 0 >>> 4)) := by
    rw [decryptParts, map_blockwise, drop_flatten_blockwise (length_base64Decrypt c.index),
      htext, hlength, blockCount_of_mod_eq_zero (Nat.mul_mod_right ..),
      Nat.mul_div_cancel_left _ (by decide), hcount]
    rfl
  -- they are those of the string
  have hmod : (c.encrypt str).length % 4 = 0 := by omega
  rw [decrypt_eq hmod, joinParts] at hback
  have hdrop := congrArg (List.drop (3 * i)) hback
  rw [List.drop_take] at hdrop
  have hne : (str.drop (3 * i)).head? ≠ none := by
    rw [Ne, List.head?_eq_none_iff, ← List.length_eq_zero_iff]
    omega
  rw [← hdrop, List.head?_take] at hne ⊢
  split_ifs at hne ⊢ with hzero
  · exact absurd rfl hne
  · exact hread

/-- `SetKeys` with the default alphabet leaves the symbol of the zero as it is. -/
theorem index_zero_of_setKeys {c c' : Base64}
    (h : c.setKeys kDefaultBase64Keys.toList = some (0, c')) : c'.index 0 = c.index 0 := by
  obtain ⟨c'', hset, -, -, hother⟩ := Tables.setKeys_of_alphabet (by decide) (by decide)
    (show Alphabet [61] (kDefaultBase64Keys.toList.take 64) from alphabet_default.1) c
  rw [setKeys, hset] at h
  obtain rfl := (Prod.mk.inj (Option.some.inj h)).2
  exact hother 0 (by decide)

/-- A string that is read back with every alphabet is shorter than 2 GiB. -/
theorem length_lt_of_roundTrips {str : Bytes} (h : RoundTrips str) : str.length < 2 ^ 31 := by
  by_contra hlong
  -- a zero is no character of the default alphabet and may have any symbol
  have hread : ∀ value : UInt8, (str.drop (3 * ((str.length - 2 ^ 31) / 3))).head? =
      some ((value <<< 2) ||| (value >>> 4)) := by
    intro value
    obtain ⟨c', hset, -, hback⟩ := h ⟨kDefaultBase64Keys, fun _ => value⟩
      kDefaultBase64Keys.toList rfl alphabet_default.1
    have hzero : c'.index 0 = value := index_zero_of_setKeys hset
    rw [← hzero]
    exact head?_of_decrypt_encrypt (by omega) (by omega) hback
  have hzero := hread 0
  rw [hread 1] at hzero
  exact absurd hzero (by decide)

end Base64

/-- A string is read back, from a text of the right length, exactly where it is shorter than
2 GiB. -/
theorem base64_roundTrips_iff (str : Bytes) : Base64.RoundTrips str ↔ str.length < 2 ^ 31 := by
  refine ⟨Base64.length_lt_of_roundTrips, fun h c keys hlen halphabet => ?_⟩
  have hkeys : Alphabet [61] (keys.take 64) := by rwa [List.take_of_length_le (by omega)]
  obtain ⟨c', hset, -, hinv, -⟩ := Tables.setKeys_of_alphabet (by decide) (by omega) hkeys c
  exact ⟨c', hset, Base64.decrypt_encrypt hinv str h⟩

/-- A string of 2 GiB. -/
theorem not_roundTrips_two_gib : ¬ ∀ str, Base64.RoundTrips str := by
  intro h
  have hlt := Base64.length_lt_of_roundTrips (h (List.replicate (2 ^ 31) 0))
  rw [List.length_replicate] at hlt
  exact lt_irrefl _ hlt

end crypt

end MosqCluster
