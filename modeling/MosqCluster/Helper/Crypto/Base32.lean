import MosqCluster.Foundation.Blocks
import MosqCluster.Helper.Crypto.Alphabet

/-!
# Base32

`helper/crypto/base32.cpp`, without padding: the number of characters says how many bytes the last
block has. The encoder spends seven characters on four bytes, and the decoder reads five bytes from
seven characters, the last of which is zero. The rest of the string is passed with its length as an
`int`, so that the blocks of a string or text of 2 GiB or more are left out.

## Main definitions

* `base32Encrypt` and `base32Decrypt`: one block;
* `BASE32.encrypt` and `BASE32.decrypt`.

## Main results

* `BASE32.decrypt_encrypt`: what is read back;
* `base32_decrypt_encrypt_iff`: when this is the string.
-/

namespace MosqCluster

namespace crypt

/-- `base32_encrypt`: the return value, and `out`. -/
def base32Encrypt (keys : UInt8 → UInt8) (input : Bytes) (inlen : Int32) : Nat × Bytes :=
  let b (i : Nat) : UInt8 := input.getD i 0
  if inlen ≤ 0 then (0, [0, 0, 0, 0, 0, 0, 0, 0])
  else
    let out0 := keys (b 0 >>> 3)
    if inlen = 1 then (2, [out0, keys ((b 0 &&& 0x07) <<< 2), 0, 0, 0, 0, 0, 0])
    else
      let out1 := keys (((b 0 &&& 0x07) <<< 2) ||| (b 1 >>> 6))
      let out2 := keys ((b 1 &&& 0x3f) >>> 1)
      if inlen = 2 then (4, [out0, out1, out2, keys ((b 1 &&& 0x01) <<< 4), 0, 0, 0, 0])
      else
        let out3 := keys (((b 1 &&& 0x01) <<< 4) ||| (b 2 >>> 4))
        if inlen = 3 then (5, [out0, out1, out2, out3, keys ((b 2 &&& 0x0f) <<< 1), 0, 0, 0])
        else
          let out4 := keys (((b 2 &&& 0x0f) <<< 1) ||| (b 3 >>> 7))
          let out5 := keys ((b 3 &&& 0x7f) >>> 2)
          if inlen = 4 then
            (7, [out0, out1, out2, out3, out4, out5, keys ((b 3 &&& 0x03) <<< 3), 0])
          else
            (8, [out0, out1, out2, out3, out4, out5,
              keys (((b 3 &&& 0x03) <<< 3) ||| (b 4 >>> 5)), keys (b 4 &&& 0x1f)])

/-- `base32_decrypt`: the return value, and `out`. -/
def base32Decrypt (index : UInt8 → UInt8) (input : Bytes) (inlen : Int32) : Nat × Bytes :=
  let s (i : Nat) : UInt8 := index (input.getD i 0)
  if inlen ≤ 0 then (0, [0, 0, 0, 0, 0])
  else if inlen = 1 then (1, [s 0 <<< 3, 0, 0, 0, 0])
  else
    let out0 := (s 0 <<< 3) ||| (s 1 >>> 2)
    if inlen = 2 then
      let out1 := (s 1 &&& 0x03) <<< 6
      (1 + if out1 ≠ 0 then 1 else 0, [out0, out1, 0, 0, 0])
    else if inlen = 3 then (2, [out0, ((s 1 &&& 0x03) <<< 6) ||| (s 2 <<< 1), 0, 0, 0])
    else
      let out1 := ((s 1 &&& 0x03) <<< 6) ||| (s 2 <<< 1) ||| (s 3 >>> 4)
      if inlen = 4 then
        let out2 := (s 3 &&& 0x0f) <<< 4
        (2 + if out2 ≠ 0 then 1 else 0, [out0, out1, out2, 0, 0])
      else
        let out2 := ((s 3 &&& 0x0f) <<< 4) ||| (s 4 >>> 1)
        if inlen = 5 then
          let out3 := (s 4 &&& 0x01) <<< 7
          (3 + if out3 ≠ 0 then 1 else 0, [out0, out1, out2, out3, 0])
        else if inlen = 6 then
          (4, [out0, out1, out2, ((s 4 &&& 0x01) <<< 7) ||| (s 5 <<< 2), 0])
        else
          let out3 := ((s 4 &&& 0x01) <<< 7) ||| (s 5 <<< 2) ||| (s 6 >>> 3)
          if inlen = 7 then (5, [out0, out1, out2, out3, (s 6 &&& 0x07) <<< 5])
          else (5, [out0, out1, out2, out3, ((s 6 &&& 0x07) <<< 5) ||| s 7])

namespace BASE32

/-- The blocks of a string, with the number of characters of each. -/
def encryptParts (c : BASE32) (str : Bytes) : List (Nat × Bytes) :=
  blockwise (fun rest => base32Encrypt c.key rest (Int32.ofNat rest.length)) 5
    (blockCount 5 str.length) str

/-- `BASE32::Encrypt`. -/
def encrypt (c : BASE32) (str : Bytes) : Bytes :=
  if str.isEmpty then [] else joinParts (c.encryptParts str)

/-- The blocks of a text, with the number of bytes of each. -/
def decryptParts (c : BASE32) (str : Bytes) : List (Nat × Bytes) :=
  blockwise (fun rest => base32Decrypt c.index rest (Int32.ofNat rest.length)) 8
    (blockCount 8 str.length) str

/-- `BASE32::Decrypt`. -/
def decrypt (c : BASE32) (str : Bytes) : Bytes := joinParts (c.decryptParts str)

variable {c : BASE32}

/-! ## Bits -/

/-- The symbols have five bits. -/
theorem quintets (x y : UInt8) :
    Fits 0x1f (x >>> 3) ∧ Fits 0x1f (((x &&& 0x07) <<< 2) ||| (y >>> 6)) ∧
      Fits 0x1f ((x &&& 0x3f) >>> 1) ∧ Fits 0x1f (((x &&& 0x01) <<< 4) ||| (y >>> 4)) ∧
      Fits 0x1f (((x &&& 0x0f) <<< 1) ||| (y >>> 7)) ∧ Fits 0x1f ((x &&& 0x7f) >>> 2) ∧
      Fits 0x1f (((x &&& 0x03) <<< 3) ||| (y >>> 5)) ∧ Fits 0x1f (x &&& 0x1f) := by
  refine ⟨?_, ?_, ?_, ?_, ?_, ?_, ?_, ?_⟩
  on_goal 8 => rw [Fits, UInt8.and_assoc, UInt8.and_self]
  all_goals apply eq_of_bits <;> simp

/-- The bits of five bytes are put together again. -/
theorem join_quintets (x y z u v : UInt8) :
    ((x >>> 3) <<< 3) ||| ((((x &&& 0x07) <<< 2) ||| (y >>> 6)) >>> 2) = x ∧
    (((((x &&& 0x07) <<< 2) ||| (y >>> 6)) &&& 0x03) <<< 6) ||| (((y &&& 0x3f) >>> 1) <<< 1) |||
      ((((y &&& 0x01) <<< 4) ||| (z >>> 4)) >>> 4) = y ∧
    (((((y &&& 0x01) <<< 4) ||| (z >>> 4)) &&& 0x0f) <<< 4) |||
      ((((z &&& 0x0f) <<< 1) ||| (u >>> 7)) >>> 1) = z ∧
    (((((z &&& 0x0f) <<< 1) ||| (u >>> 7)) &&& 0x01) <<< 7) ||| (((u &&& 0x7f) >>> 2) <<< 2) |||
      ((((u &&& 0x03) <<< 3) ||| (v >>> 5)) >>> 3) = u ∧
    (((((u &&& 0x03) <<< 3) ||| (v >>> 5)) &&& 0x07) <<< 5) ||| (v &&& 0x1f) = v := by
  refine ⟨?_, ?_, ?_, ?_, ?_⟩ <;> apply eq_of_bits <;> simp

/-- The last symbols, without the bits of a further byte. -/
theorem quintets_last (x : UInt8) :
    Fits 0x1f ((x &&& 0x07) <<< 2) ∧ Fits 0x1f ((x &&& 0x01) <<< 4) ∧
      Fits 0x1f ((x &&& 0x0f) <<< 1) ∧ Fits 0x1f ((x &&& 0x03) <<< 3) := by
  refine ⟨?_, ?_, ?_, ?_⟩ <;> apply eq_of_bits <;> simp

/-- The bits of the last byte are put together again. -/
theorem join_quintets_last (x y : UInt8) :
    ((y >>> 3) <<< 3) ||| (((y &&& 0x07) <<< 2) >>> 2) = y ∧
    (((((x &&& 0x07) <<< 2) ||| (y >>> 6)) &&& 0x03) <<< 6) ||| (((y &&& 0x3f) >>> 1) <<< 1) |||
      (((y &&& 0x01) <<< 4) >>> 4) = y ∧
    (((((x &&& 0x01) <<< 4) ||| (y >>> 4)) &&& 0x0f) <<< 4) ||| (((y &&& 0x0f) <<< 1) >>> 1) = y ∧
    (((((x &&& 0x0f) <<< 1) ||| (y >>> 7)) &&& 0x01) <<< 7) ||| (((y &&& 0x7f) >>> 2) <<< 2) |||
      (((y &&& 0x03) <<< 3) >>> 3) = y := by
  refine ⟨?_, ?_, ?_, ?_⟩ <;> apply eq_of_bits <;> simp

/-- Nothing is left of the last symbol. -/
theorem rest_quintets_last (x : UInt8) :
    (((x &&& 0x07) <<< 2) &&& 0x03) <<< 6 = 0 ∧ (((x &&& 0x01) <<< 4) &&& 0x0f) <<< 4 = 0 ∧
      (((x &&& 0x0f) <<< 1) &&& 0x01) <<< 7 = 0 ∧ (((x &&& 0x03) <<< 3) &&& 0x07) <<< 5 = 0 := by
  refine ⟨?_, ?_, ?_, ?_⟩ <;> apply eq_of_bits <;> simp

/-! ## Blocks -/

/-- The bytes of a block. -/
theorem exists_of_length_eq_five {b : Bytes} (h : b.length = 5) :
    ∃ x y z u v, b = [x, y, z, u, v] := by
  match b, h with
  | [x, y, z, u, v], _ => exact ⟨x, y, z, u, v, rfl⟩

theorem encrypt_eq (c : BASE32) (str : Bytes) : c.encrypt str = joinParts (c.encryptParts str) := by
  cases str with
  | nil => rfl
  | cons x str => rfl

/-- The parts of a string are the first one and those of the rest. -/
theorem encryptParts_append {b : Bytes} (hb : b.length = 5) (rest : Bytes) :
    c.encryptParts (b ++ rest) =
      base32Encrypt c.key (b ++ rest) (Int32.ofNat (b ++ rest).length) :: c.encryptParts rest := by
  rw [encryptParts, blockwise_append (by decide) hb, encryptParts]

/-- The parts of a text are the first one and those of the rest. -/
theorem decryptParts_append {block : Bytes} (hblock : block.length = 8) (text : Bytes) :
    c.decryptParts (block ++ text) =
      base32Decrypt c.index (block ++ text) (Int32.ofNat (block ++ text).length) ::
        c.decryptParts text := by
  rw [decryptParts, blockwise_append (by decide) hblock, decryptParts]

/-- The text of a block of five bytes and of the rest. -/
theorem encrypt_five (c : BASE32) (x y z u v : UInt8) (rest : Bytes)
    (h : ([x, y, z, u, v] ++ rest).length < 2 ^ 31) :
    c.encrypt ([x, y, z, u, v] ++ rest) =
      [c.key (x >>> 3), c.key (((x &&& 0x07) <<< 2) ||| (y >>> 6)), c.key ((y &&& 0x3f) >>> 1),
        c.key (((y &&& 0x01) <<< 4) ||| (z >>> 4)), c.key (((z &&& 0x0f) <<< 1) ||| (u >>> 7)),
        c.key ((u &&& 0x7f) >>> 2), c.key (((u &&& 0x03) <<< 3) ||| (v >>> 5)),
        c.key (v &&& 0x1f)] ++ c.encrypt rest := by
  have hpos : ¬ Int32.ofNat ([x, y, z, u, v] ++ rest).length ≤ 0 := by
    rw [ofNat_le_zero_iff h]
    simp
  -- the length as an `int` is that of none of the shorter blocks
  have hne : ∀ k < 5, Int32.ofNat ([x, y, z, u, v] ++ rest).length ≠ Int32.ofNat k := by
    intro k hk
    exact ofNat_ne_of_lt h (by rw [List.length_append]; exact hk.trans_le (Nat.le_add_right ..))
  have hblock : base32Encrypt c.key ([x, y, z, u, v] ++ rest)
      (Int32.ofNat ([x, y, z, u, v] ++ rest).length) =
        (8, [c.key (x >>> 3), c.key (((x &&& 0x07) <<< 2) ||| (y >>> 6)),
          c.key ((y &&& 0x3f) >>> 1), c.key (((y &&& 0x01) <<< 4) ||| (z >>> 4)),
          c.key (((z &&& 0x0f) <<< 1) ||| (u >>> 7)), c.key ((u &&& 0x7f) >>> 2),
          c.key (((u &&& 0x03) <<< 3) ||| (v >>> 5)), c.key (v &&& 0x1f)]) := by
    have hone : Int32.ofNat ([x, y, z, u, v] ++ rest).length ≠ 1 := hne 1 (by decide)
    have htwo : Int32.ofNat ([x, y, z, u, v] ++ rest).length ≠ 2 := hne 2 (by decide)
    have hthree : Int32.ofNat ([x, y, z, u, v] ++ rest).length ≠ 3 := hne 3 (by decide)
    have hfour : Int32.ofNat ([x, y, z, u, v] ++ rest).length ≠ 4 := hne 4 (by decide)
    simp only [base32Encrypt, if_neg hpos, if_neg hone, if_neg htwo, if_neg hthree, if_neg hfour]
    rfl
  rw [encrypt_eq, encryptParts_append rfl, hblock, joinParts_cons_of_eq rfl, encrypt_eq]

/-- The texts of the shorter blocks. -/
theorem encrypt_last (c : BASE32) (x y z u : UInt8) :
    c.encrypt [x] = [c.key (x >>> 3), c.key ((x &&& 0x07) <<< 2)] ∧
    c.encrypt [x, y] =
      [c.key (x >>> 3), c.key (((x &&& 0x07) <<< 2) ||| (y >>> 6)), c.key ((y &&& 0x3f) >>> 1),
        c.key ((y &&& 0x01) <<< 4)] ∧
    c.encrypt [x, y, z] =
      [c.key (x >>> 3), c.key (((x &&& 0x07) <<< 2) ||| (y >>> 6)), c.key ((y &&& 0x3f) >>> 1),
        c.key (((y &&& 0x01) <<< 4) ||| (z >>> 4)), c.key ((z &&& 0x0f) <<< 1)] ∧
    c.encrypt [x, y, z, u] =
      [c.key (x >>> 3), c.key (((x &&& 0x07) <<< 2) ||| (y >>> 6)), c.key ((y &&& 0x3f) >>> 1),
        c.key (((y &&& 0x01) <<< 4) ||| (z >>> 4)), c.key (((z &&& 0x0f) <<< 1) ||| (u >>> 7)),
        c.key ((u &&& 0x7f) >>> 2), c.key ((u &&& 0x03) <<< 3)] := by
  refine ⟨?_, ?_, ?_, ?_⟩ <;>
    · rw [encrypt_eq, encryptParts, blockwise_last (by simp) (by simp), joinParts_singleton]
      rfl

/-- A symbol is read back from its character. -/
theorem index_key_quintet (hinv : c.Invertible []) {p : UInt8} (hp : Fits 0x1f p) :
    c.index (c.key p) = p := hinv.index_key_of_fits (by decide) hp

/-- A text of eight symbols, and the rest of it. -/
theorem decrypt_eight (hinv : c.Invertible []) {p q r s t w m n : UInt8} (hp : Fits 0x1f p)
    (hq : Fits 0x1f q) (hr : Fits 0x1f r) (hs : Fits 0x1f s) (ht : Fits 0x1f t)
    (hw : Fits 0x1f w) (hm : Fits 0x1f m) (hn : Fits 0x1f n) (text : Bytes)
    (h : 8 + text.length < 2 ^ 31) :
    c.decrypt ([c.key p, c.key q, c.key r, c.key s, c.key t, c.key w, c.key m, c.key n] ++ text) =
      [(p <<< 3) ||| (q >>> 2), ((q &&& 0x03) <<< 6) ||| (r <<< 1) ||| (s >>> 4),
        ((s &&& 0x0f) <<< 4) ||| (t >>> 1), ((t &&& 0x01) <<< 7) ||| (w <<< 2) ||| (m >>> 3),
        ((m &&& 0x07) <<< 5) ||| n] ++ c.decrypt text := by
  -- the text is only looked at once its length is settled
  generalize htext : [c.key p, c.key q, c.key r, c.key s, c.key t, c.key w, c.key m, c.key n] ++
    text = full
  have hlen : full.length = 8 + text.length := by
    rw [← htext, List.length_append]
    rfl
  have hpos : ¬ Int32.ofNat full.length ≤ 0 := by
    rw [ofNat_le_zero_iff (by omega)]
    omega
  have hne : ∀ k < 8, Int32.ofNat full.length ≠ Int32.ofNat k := by
    intro k hk
    exact ofNat_ne_of_lt (by omega) (by omega)
  have hblock : base32Decrypt c.index full (Int32.ofNat full.length) =
      (5, [(p <<< 3) ||| (q >>> 2), ((q &&& 0x03) <<< 6) ||| (r <<< 1) ||| (s >>> 4),
        ((s &&& 0x0f) <<< 4) ||| (t >>> 1), ((t &&& 0x01) <<< 7) ||| (w <<< 2) ||| (m >>> 3),
        ((m &&& 0x07) <<< 5) ||| n]) := by
    have hone : Int32.ofNat full.length ≠ 1 := hne 1 (by decide)
    have htwo : Int32.ofNat full.length ≠ 2 := hne 2 (by decide)
    have hthree : Int32.ofNat full.length ≠ 3 := hne 3 (by decide)
    have hfour : Int32.ofNat full.length ≠ 4 := hne 4 (by decide)
    have hfive : Int32.ofNat full.length ≠ 5 := hne 5 (by decide)
    have hsix : Int32.ofNat full.length ≠ 6 := hne 6 (by decide)
    have hseven : Int32.ofNat full.length ≠ 7 := hne 7 (by decide)
    simp only [base32Decrypt, if_neg hpos, if_neg hone, if_neg htwo, if_neg hthree, if_neg hfour,
      if_neg hfive, if_neg hsix, if_neg hseven]
    rw [← htext]
    simp only [List.cons_append, List.getD_cons_zero, List.getD_cons_succ,
      index_key_quintet hinv hp, index_key_quintet hinv hq, index_key_quintet hinv hr,
      index_key_quintet hinv hs, index_key_quintet hinv ht, index_key_quintet hinv hw,
      index_key_quintet hinv hm, index_key_quintet hinv hn]
  rw [decrypt, ← htext, decryptParts_append rfl, htext, hblock, joinParts_cons_of_eq rfl, decrypt]

/-- A text of one block. -/
theorem decrypt_block {text : Bytes} (hpos : 0 < text.length) (hle : text.length ≤ 8) :
    c.decrypt text =
      (base32Decrypt c.index text (Int32.ofNat text.length)).2.take
        (base32Decrypt c.index text (Int32.ofNat text.length)).1 := by
  rw [decrypt, decryptParts, blockwise_last hpos hle, joinParts_singleton]

/-- A text of two symbols, of which no bits are left. -/
theorem decrypt_two (hinv : c.Invertible []) {p q : UInt8} (hp : Fits 0x1f p) (hq : Fits 0x1f q)
    (hrest : (q &&& 0x03) <<< 6 = 0) :
    c.decrypt [c.key p, c.key q] = [(p <<< 3) ||| (q >>> 2)] := by
  rw [decrypt_block (by simp) (by simp)]
  show List.take (1 + if (c.index (c.key q) &&& 0x03) <<< 6 ≠ 0 then 1 else 0)
    [(c.index (c.key p) <<< 3) ||| (c.index (c.key q) >>> 2), _, 0, 0, 0] = _
  rw [index_key_quintet hinv hp, index_key_quintet hinv hq, hrest]
  rfl

/-- A text of four symbols, of which no bits are left. -/
theorem decrypt_four (hinv : c.Invertible []) {p q r s : UInt8} (hp : Fits 0x1f p)
    (hq : Fits 0x1f q) (hr : Fits 0x1f r) (hs : Fits 0x1f s) (hrest : (s &&& 0x0f) <<< 4 = 0) :
    c.decrypt [c.key p, c.key q, c.key r, c.key s] =
      [(p <<< 3) ||| (q >>> 2), ((q &&& 0x03) <<< 6) ||| (r <<< 1) ||| (s >>> 4)] := by
  rw [decrypt_block (by simp) (by simp)]
  show List.take (2 + if (c.index (c.key s) &&& 0x0f) <<< 4 ≠ 0 then 1 else 0)
    [(c.index (c.key p) <<< 3) ||| (c.index (c.key q) >>> 2),
      ((c.index (c.key q) &&& 0x03) <<< 6) ||| (c.index (c.key r) <<< 1) |||
        (c.index (c.key s) >>> 4), _, 0, 0] = _
  rw [index_key_quintet hinv hp, index_key_quintet hinv hq, index_key_quintet hinv hr,
    index_key_quintet hinv hs, hrest]
  rfl

/-- A text of five symbols, of which no bits are left. -/
theorem decrypt_five (hinv : c.Invertible []) {p q r s t : UInt8} (hp : Fits 0x1f p)
    (hq : Fits 0x1f q) (hr : Fits 0x1f r) (hs : Fits 0x1f s) (ht : Fits 0x1f t)
    (hrest : (t &&& 0x01) <<< 7 = 0) :
    c.decrypt [c.key p, c.key q, c.key r, c.key s, c.key t] =
      [(p <<< 3) ||| (q >>> 2), ((q &&& 0x03) <<< 6) ||| (r <<< 1) ||| (s >>> 4),
        ((s &&& 0x0f) <<< 4) ||| (t >>> 1)] := by
  rw [decrypt_block (by simp) (by simp)]
  show List.take (3 + if (c.index (c.key t) &&& 0x01) <<< 7 ≠ 0 then 1 else 0)
    [(c.index (c.key p) <<< 3) ||| (c.index (c.key q) >>> 2),
      ((c.index (c.key q) &&& 0x03) <<< 6) ||| (c.index (c.key r) <<< 1) |||
        (c.index (c.key s) >>> 4),
      ((c.index (c.key s) &&& 0x0f) <<< 4) ||| (c.index (c.key t) >>> 1), _, 0] = _
  rw [index_key_quintet hinv hp, index_key_quintet hinv hq, index_key_quintet hinv hr,
    index_key_quintet hinv hs, index_key_quintet hinv ht, hrest]
  rfl

/-- A text of seven symbols, which is read as five bytes. -/
theorem decrypt_seven (hinv : c.Invertible []) {p q r s t w m : UInt8} (hp : Fits 0x1f p)
    (hq : Fits 0x1f q) (hr : Fits 0x1f r) (hs : Fits 0x1f s) (ht : Fits 0x1f t)
    (hw : Fits 0x1f w) (hm : Fits 0x1f m) :
    c.decrypt [c.key p, c.key q, c.key r, c.key s, c.key t, c.key w, c.key m] =
      [(p <<< 3) ||| (q >>> 2), ((q &&& 0x03) <<< 6) ||| (r <<< 1) ||| (s >>> 4),
        ((s &&& 0x0f) <<< 4) ||| (t >>> 1), ((t &&& 0x01) <<< 7) ||| (w <<< 2) ||| (m >>> 3),
        (m &&& 0x07) <<< 5] := by
  rw [decrypt_block (by simp) (by simp)]
  show [(c.index (c.key p) <<< 3) ||| (c.index (c.key q) >>> 2),
      ((c.index (c.key q) &&& 0x03) <<< 6) ||| (c.index (c.key r) <<< 1) |||
        (c.index (c.key s) >>> 4),
      ((c.index (c.key s) &&& 0x0f) <<< 4) ||| (c.index (c.key t) >>> 1),
      ((c.index (c.key t) &&& 0x01) <<< 7) ||| (c.index (c.key w) <<< 2) |||
        (c.index (c.key m) >>> 3), (c.index (c.key m) &&& 0x07) <<< 5] = _
  rw [index_key_quintet hinv hp, index_key_quintet hinv hq, index_key_quintet hinv hr,
    index_key_quintet hinv hs, index_key_quintet hinv ht, index_key_quintet hinv hw,
    index_key_quintet hinv hm]

/-! ## The round trip -/

/-- The length of a text. -/
theorem length_encrypt (c : BASE32) (str : Bytes) (h : str.length < 2 ^ 31) :
    ∃ tail ≤ 7, (c.encrypt str).length = 8 * (str.length / 5) + tail := by
  -- the induction is on the blocks
  induction str using block_induction (show 0 < 5 by decide) with
  | nil => exact ⟨0, by decide, rfl⟩
  | last str hpos hlt =>
    have hdiv : str.length / 5 = 0 := Nat.div_eq_of_lt hlt
    refine ⟨(c.encrypt str).length, ?_, by omega⟩
    match str, hpos, hlt with
    | [x], _, _ => simp [(c.encrypt_last x 0 0 0).1]
    | [x, y], _, _ => simp [(c.encrypt_last x y 0 0).2.1]
    | [x, y, z], _, _ => simp [(c.encrypt_last x y z 0).2.2.1]
    | [x, y, z, u], _, _ => simp [(c.encrypt_last x y z u).2.2.2]
  | block b rest hb ih =>
    rw [List.length_append, hb] at h ⊢
    obtain ⟨tail, htail, hlen⟩ := ih (by omega)
    obtain ⟨x, y, z, u, v, rfl⟩ := exists_of_length_eq_five hb
    refine ⟨tail, htail, ?_⟩
    rw [encrypt_five _ _ _ _ _ _ _ (by rw [List.length_append, hb]; exact h), List.length_append,
      hlen, Nat.add_div_left _ (by decide)]
    simp only [List.length_cons, List.length_nil]
    omega

/-- What is read back of a string that is shorter than a block: four bytes get a zero. -/
theorem decrypt_encrypt_last (hinv : c.Invertible []) {str : Bytes} (hpos : 0 < str.length)
    (hlt : str.length < 5) :
    c.decrypt (c.encrypt str) = if str.length % 5 = 4 then str ++ [0] else str := by
  match str, hpos, hlt with
  | [x], _, _ =>
    obtain ⟨hp, hq, -⟩ := quintets x 0
    rw [(c.encrypt_last x 0 0 0).1, decrypt_two hinv hp (quintets_last x).1
      (rest_quintets_last x).1, (join_quintets_last 0 x).1]
    rfl
  | [x, y], _, _ =>
    obtain ⟨hp, hq, -⟩ := quintets x y
    rw [(c.encrypt_last x y 0 0).2.1, decrypt_four hinv hp hq (quintets y 0).2.2.1
      (quintets_last y).2.1 (rest_quintets_last y).2.1, (join_quintets x y 0 0 0).1,
      (join_quintets_last x y).2.1]
    rfl
  | [x, y, z], _, _ =>
    obtain ⟨hp, hq, -⟩ := quintets x y
    obtain ⟨-, -, hr, hs, -⟩ := quintets y z
    rw [(c.encrypt_last x y z 0).2.2.1, decrypt_five hinv hp hq hr hs (quintets_last z).2.2.1
      (rest_quintets_last z).2.2.1, (join_quintets x y z 0 0).1, (join_quintets x y z 0 0).2.1,
      (join_quintets_last y z).2.2.1]
    rfl
  | [x, y, z, u], _, _ =>
    obtain ⟨hp, hq, -⟩ := quintets x y
    obtain ⟨-, -, hr, hs, -⟩ := quintets y z
    obtain ⟨-, -, -, -, ht, -⟩ := quintets z u
    obtain ⟨-, -, -, -, -, hw, -⟩ := quintets u 0
    rw [(c.encrypt_last x y z u).2.2.2, decrypt_seven hinv hp hq hr hs ht hw
      (quintets_last u).2.2.2, (join_quintets x y z u 0).1, (join_quintets x y z u 0).2.1,
      (join_quintets x y z u 0).2.2.1, (join_quintets_last z u).2.2.2,
      (rest_quintets_last u).2.2.2]
    rfl

/-- What is read back of a string that is not too long: a last block of four bytes gets a zero. -/
theorem decrypt_encrypt (hinv : c.Invertible []) (str : Bytes) (h : str.length < 5 * 2 ^ 28) :
    c.decrypt (c.encrypt str) = if str.length % 5 = 4 then str ++ [0] else str := by
  -- the induction is on the blocks; the text of each is eight symbols
  induction str using block_induction (show 0 < 5 by decide) with
  | nil => simp [encrypt, decrypt, decryptParts, blockwise, joinParts]
  | last str hpos hlt => exact decrypt_encrypt_last hinv hpos hlt
  | block b rest hb ih =>
    have hlen : (b ++ rest).length = 5 + rest.length := by rw [List.length_append, hb]
    have hback := ih (by omega)
    obtain ⟨tail, htail, htext⟩ := c.length_encrypt rest (by omega)
    obtain ⟨x, y, z, u, v, rfl⟩ := exists_of_length_eq_five hb
    obtain ⟨hp, hq, -⟩ := quintets x y
    obtain ⟨-, -, hr, hs, -⟩ := quintets y z
    obtain ⟨-, -, -, -, ht, -⟩ := quintets z u
    obtain ⟨-, -, -, -, -, hw, hm, -⟩ := quintets u v
    obtain ⟨-, -, -, -, -, -, -, hn⟩ := quintets v 0
    have hmod : ([x, y, z, u, v] ++ rest).length % 5 = rest.length % 5 := by omega
    rw [encrypt_five _ _ _ _ _ _ _ (by omega), decrypt_eight hinv hp hq hr hs ht hw hm hn _
      (by omega), hback, hmod]
    obtain ⟨h0, h1, h2, h3, h4⟩ := join_quintets x y z u v
    rw [h0, h1, h2, h3, h4]
    split_ifs
    · rw [List.append_assoc]
    · rfl

/-! ## Strings of 1.25 GiB and more -/

theorem base32Encrypt_fst_le (keys : UInt8 → UInt8) (input : Bytes) (inlen : Int32) :
    (base32Encrypt keys input inlen).1 ≤ 8 := by
  rw [base32Encrypt]
  dsimp only
  split_ifs <;> simp

theorem base32Decrypt_fst_le (index : UInt8 → UInt8) (input : Bytes) (inlen : Int32) :
    (base32Decrypt index input inlen).1 ≤ 5 := by
  rw [base32Decrypt]
  dsimp only
  split_ifs <;> simp

/-- A string has at most eight characters of text for each block, and the text of a string of 2 GiB
lacks a block. -/
theorem length_encrypt_le (c : BASE32) (str : Bytes) :
    (c.encrypt str).length ≤ 8 * blockCount 5 str.length ∧
      (2 ^ 31 ≤ str.length → (c.encrypt str).length + 8 ≤ 8 * blockCount 5 str.length) := by
  rw [encrypt_eq, encryptParts]
  refine ⟨length_joinParts_blockwise_le (fun _ => base32Encrypt_fst_le ..) _ _ _, fun hlong => ?_⟩
  have hcover := le_mul_blockCount (show 0 < 5 by decide) str.length
  -- the last block that is taken for one of negative length
  obtain ⟨i, hlow, hhigh⟩ : ∃ i, 2 ^ 31 + 5 * i ≤ str.length ∧ str.length < 2 ^ 31 + 5 * i + 5 :=
    ⟨(str.length - 2 ^ 31) / 5, by omega, by omega⟩
  have hneg : Int32.ofNat (str.drop (5 * i)).length ≤ 0 := by
    apply ofNat_le_zero <;> rw [List.length_drop] <;> omega
  refine length_joinParts_blockwise_add_le (fun _ => base32Encrypt_fst_le ..)
    (show i < blockCount 5 str.length by omega) ?_
  rw [base32Encrypt]
  simp only [if_pos hneg]

/-- A text gives at most five bytes for each block, and a text of 2 GiB gives none for one. -/
theorem length_decrypt_le (c : BASE32) (text : Bytes) :
    (c.decrypt text).length ≤ 5 * blockCount 8 text.length ∧
      (2 ^ 31 ≤ text.length → (c.decrypt text).length + 5 ≤ 5 * blockCount 8 text.length) := by
  rw [decrypt, decryptParts]
  refine ⟨length_joinParts_blockwise_le (fun _ => base32Decrypt_fst_le ..) _ _ _, fun hlong => ?_⟩
  have hcover := le_mul_blockCount (show 0 < 8 by decide) text.length
  obtain ⟨i, hlow, hhigh⟩ : ∃ i, 2 ^ 31 + 8 * i ≤ text.length ∧ text.length < 2 ^ 31 + 8 * i + 8 :=
    ⟨(text.length - 2 ^ 31) / 8, by omega, by omega⟩
  have hneg : Int32.ofNat (text.drop (8 * i)).length ≤ 0 := by
    apply ofNat_le_zero <;> rw [List.length_drop] <;> omega
  refine length_joinParts_blockwise_add_le (fun _ => base32Decrypt_fst_le ..)
    (show i < blockCount 8 text.length by omega) ?_
  rw [base32Decrypt]
  simp only [if_pos hneg]

/-- A string of 1.25 GiB or more is not read back. -/
theorem length_decrypt_encrypt_lt (c : BASE32) (str : Bytes) (h : 5 * 2 ^ 28 ≤ str.length) :
    (c.decrypt (c.encrypt str)).length < str.length := by
  obtain ⟨htext, htext_long⟩ := c.length_encrypt_le str
  obtain ⟨hback, hback_long⟩ := c.length_decrypt_le (c.encrypt str)
  -- the string is longer than one block less
  have hblocks : 5 * (blockCount 5 str.length - 1) < str.length := by
    by_contra hle
    have hcount := blockCount_le (Nat.not_lt.mp hle)
    have hcover := le_mul_blockCount (show 0 < 5 by decide) str.length
    omega
  rcases Nat.lt_or_ge str.length (2 ^ 31) with hlt | hge
  · -- the text is complete, but too long
    obtain ⟨tail, -, hlen⟩ := c.length_encrypt str hlt
    have hcount := blockCount_le htext
    have := hback_long (by omega)
    omega
  · -- the text lacks a block
    have hshort := htext_long hge
    have hcount : blockCount 8 (c.encrypt str).length ≤ blockCount 5 str.length - 1 :=
      blockCount_le (by omega)
    omega

end BASE32

/-- A string is read back exactly where it is shorter than 1.25 GiB and its last block does not have
four bytes. -/
theorem base32_decrypt_encrypt_iff (c : BASE32) (keys str : Bytes) (hlen : keys.length = 32)
    (halphabet : Alphabet [] keys) :
    ∃ c', c.setKeys keys = some (0, c') ∧
      (c'.decrypt (c'.encrypt str) = str ↔ str.length < 5 * 2 ^ 28 ∧ str.length % 5 ≠ 4) := by
  have hkeys : Alphabet [] (keys.take 32) := by rwa [List.take_of_length_le (by omega)]
  obtain ⟨c', hset, -, hinv, -⟩ := Tables.setKeys_of_alphabet (by decide) (by omega) hkeys c
  refine ⟨c', hset, ?_⟩
  constructor
  · intro hback
    have hshort : str.length < 5 * 2 ^ 28 := by
      by_contra hlong
      have hlt := BASE32.length_decrypt_encrypt_lt c' str (Nat.not_lt.mp hlong)
      rw [hback] at hlt
      exact lt_irrefl _ hlt
    refine ⟨hshort, fun hmod => ?_⟩
    rw [BASE32.decrypt_encrypt hinv str hshort, if_pos hmod] at hback
    simpa using congrArg List.length hback
  · rintro ⟨hshort, hmod⟩
    rw [BASE32.decrypt_encrypt hinv str hshort, if_neg hmod]

/-- With the default alphabet, five bytes are read back. -/
theorem base32_decrypt_encrypt_default : ∃ c' : BASE32,
    BASE32.setKeys ⟨kDefaultBase32Keys, fun _ => 0⟩ kDefaultBase32Keys.toList = some (0, c') ∧
      (c'.decrypt (c'.encrypt (bytes "mosq1")) = bytes "mosq1" ↔
        (bytes "mosq1").length < 5 * 2 ^ 28 ∧ (bytes "mosq1").length % 5 ≠ 4) :=
  base32_decrypt_encrypt_iff ⟨kDefaultBase32Keys, fun _ => 0⟩ kDefaultBase32Keys.toList
    (bytes "mosq1") rfl alphabet_default.2

/-- Four bytes get a zero. -/
theorem not_decrypt_encrypt_four : ¬ ∀ (c : BASE32) (keys str : Bytes), keys.length = 32 →
    Alphabet [] keys →
      ∃ c', c.setKeys keys = some (0, c') ∧ c'.decrypt (c'.encrypt str) = str := by
  intro h
  have hkeys : Alphabet [] (kDefaultBase32Keys.toList.take 32) := alphabet_default.2
  obtain ⟨c', hset, -, hinv, -⟩ := Tables.setKeys_of_alphabet (by decide) (by decide) hkeys
    ⟨kDefaultBase32Keys, fun _ => 0⟩
  obtain ⟨c'', hset', hback⟩ := h ⟨kDefaultBase32Keys, fun _ => 0⟩ kDefaultBase32Keys.toList
    (bytes "mosq") rfl alphabet_default.2
  rw [BASE32.setKeys, hset] at hset'
  obtain rfl := (Prod.mk.inj (Option.some.inj hset')).2
  rw [BASE32.decrypt_encrypt hinv _ (by decide)] at hback
  exact absurd hback (by decide)

end crypt

end MosqCluster
