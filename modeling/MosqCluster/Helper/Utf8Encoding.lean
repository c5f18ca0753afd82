import MosqCluster.Foundation.PrefixCode
import MosqCluster.Helper.StringConvert

/-!
# The bytes of a character

What `WcharToUtf8` of `helper/string_convert.cpp` writes is UTF-8 in its form of up to six bytes.
The first byte of a character of several bytes begins with as many ones as there are bytes, and a
zero; each other byte begins with `10`; the bits that are left over make up the code point.

## Main definitions

* `IsUtf8`: the bytes of a code point, in any number of bytes;
* `WritesUtf8`: what is written of a code point.

## Main results

* `isUtf8_encode` and `IsUtf8.length_le`: what is written is UTF-8, in as few bytes as there can be;
* `prefixCode_encode`: the characters are a prefix code;
* `utf8_correct`: both, and that sequences of which the same is written are the same.
-/

namespace MosqCluster

/-- The bits of the bytes that are left over, behind those of a number. -/
def payload (bits : Nat) (conts : Bytes) : Nat :=
  conts.foldl (fun bits b => bits * 2 ^ 6 + b.toNat % 2 ^ 6) bits

/-- The bytes are UTF-8 for a code point. -/
inductive IsUtf8 : Bytes → Nat → Prop
  | single (b : UInt8) (hb : b.toNat < 2 ^ 7) : IsUtf8 [b] b.toNat
  /-- The first byte has as many ones as there are bytes, a zero, and the first bits. -/
  | several (lead : UInt8) (conts : Bytes) (hne : conts ≠ []) (hlength : conts.length ≤ 5)
      (hlead : lead.toNat / 2 ^ (6 - conts.length) = 2 ^ (conts.length + 2) - 2)
      (hconts : ∀ b ∈ conts, b.toNat / 2 ^ 6 = 0b10) :
      IsUtf8 (lead :: conts) (payload (lead.toNat % 2 ^ (6 - conts.length)) conts)

/-- Of a code point its UTF-8 is written, in as few bytes as there can be, where there is room for
it. -/
def WritesUtf8 (wch : Nat) : Prop :=
  ∃ bs, IsUtf8 bs wch ∧ (∀ bs', IsUtf8 bs' wch → bs.length ≤ bs'.length) ∧
    ∀ size : Int, wcharToUtf8 wch size = if size < bs.length then .smallOutput else .bytes bs

section Encode

variable {wch wch' : Nat} {bs bs' : Bytes}

/-- A continuation byte begins with `10`, and has six bits of the code point. -/
theorem contByte_bits (wch d : Nat) :
    (contByte wch d).toNat / 2 ^ 6 = 0b10 ∧ (contByte wch d).toNat % 2 ^ 6 = wch / d % 2 ^ 6 := by
  rw [toNat_contByte]
  omega

/-- Where the bits of the continuation bytes stand in the code point, from the first byte on. -/
def places : Nat → List Nat
  | 0 => []
  | n + 1 => (2 ^ 6) ^ n :: places n

theorem length_places (n : Nat) : (places n).length = n := by
  induction n with
  | zero => rfl
  | succ n ih => rw [places, List.length_cons, ih]

/-- A continuation byte adds its six bits, so that all of them add up to the code point. -/
theorem payload_places (wch n : Nat) :
    payload (wch / (2 ^ 6) ^ n) ((places n).map (contByte wch)) = wch := by
  induction n with
  | zero => exact Nat.div_one wch
  | succ n ih =>
    have hbits : wch / (2 ^ 6) ^ (n + 1) * 2 ^ 6 + wch / (2 ^ 6) ^ n % 2 ^ 6 =
        wch / (2 ^ 6) ^ n := by
      rw [Nat.pow_succ, ← Nat.div_div_eq_div_mul, Nat.div_add_mod']
    rw [places, List.map_cons, payload, List.foldl_cons, (contByte_bits wch _).2, hbits, ← payload,
      ih]

/-- A lead with the number of the bytes and the first bits, and the continuation bytes. -/
theorem isUtf8_of_lead {ch n : Nat} (hch : ch < 2 ^ 8) (hne : n ≠ 0) (hle : n ≤ 5)
    (hlead : ch / 2 ^ (6 - n) = 2 ^ (n + 2) - 2)
    (hbits : ch % 2 ^ (6 - n) = wch / (2 ^ 6) ^ n) :
    IsUtf8 (.ofNat ch :: (places n).map (contByte wch)) wch := by
  have htoNat : (UInt8.ofNat ch).toNat = ch := UInt8.toNat_ofNat_of_lt' hch
  have hlength : ((places n).map (contByte wch)).length = n := by
    rw [List.length_map, length_places]
  have hconts : ∀ b ∈ (places n).map (contByte wch), b.toNat / 2 ^ 6 = 0b10 := by
    intro b hb
    obtain ⟨d, -, rfl⟩ := List.mem_map.mp hb
    exact (contByte_bits wch d).1
  have h := IsUtf8.several (.ofNat ch) ((places n).map (contByte wch))
    (List.ne_nil_of_length_pos (by omega)) (by omega) (by rw [htoNat, hlength, hlead]) hconts
  rwa [htoNat, hlength, hbits, payload_places] at h

/-- What is written of a code point is UTF-8. -/
theorem isUtf8_encode (h : wch ≤ 0x7fffffff) : IsUtf8 (encode wch) wch := by
  rcases encode_cases wch with ⟨hr, -, he⟩ | ⟨hr, -, he⟩ | ⟨hr, -, he⟩ | ⟨hr, -, he⟩ |
    ⟨hr, -, he⟩ | ⟨hr, -, he⟩
  all_goals rw [he]
  · have htoNat : (UInt8.ofNat wch).toNat = wch :=
      UInt8.toNat_ofNat_of_lt' (Nat.lt_trans hr (by decide))
    have hsingle := IsUtf8.single (.ofNat wch) (by rw [htoNat]; exact hr)
    rwa [htoNat] at hsingle
  · exact isUtf8_of_lead (n := 1) (by omega) (by decide) (by decide)
      (show (0xc0 + wch / 2 ^ 6) / 2 ^ 5 = 6 by omega)
      (show (0xc0 + wch / 2 ^ 6) % 2 ^ 5 = wch / 2 ^ 6 by omega)
  · exact isUtf8_of_lead (n := 2) (by omega) (by decide) (by decide)
      (show (0xe0 + wch / 2 ^ 12) / 2 ^ 4 = 14 by omega)
      (show (0xe0 + wch / 2 ^ 12) % 2 ^ 4 = wch / 2 ^ 12 by omega)
  · exact isUtf8_of_lead (n := 3) (by omega) (by decide) (by decide)
      (show (0xf0 + wch / 2 ^ 18) / 2 ^ 3 = 30 by omega)
      (show (0xf0 + wch / 2 ^ 18) % 2 ^ 3 = wch / 2 ^ 18 by omega)
  · exact isUtf8_of_lead (n := 4) (by omega) (by decide) (by decide)
      (show (0xf8 + wch / 2 ^ 24) / 2 ^ 2 = 62 by omega)
      (show (0xf8 + wch / 2 ^ 24) % 2 ^ 2 = wch / 2 ^ 24 by omega)
  · exact isUtf8_of_lead (n := 5) (by omega) (by decide) (by decide)
      (show (0xfc + wch / 2 ^ 30) / 2 ^ 1 = 126 by omega)
      (show (0xfc + wch / 2 ^ 30) % 2 ^ 1 = wch / 2 ^ 30 by omega)

/-- The bits that are put together leave room for nothing else. -/
theorem payload_lt {bits m : Nat} (h : bits < m) (conts : Bytes) :
    payload bits conts < m * (2 ^ 6) ^ conts.length := by
  induction conts generalizing bits m with
  | nil => simpa [payload] using h
  | cons b conts ih =>
    have hmod : b.toNat % 2 ^ 6 < 2 ^ 6 := Nat.mod_lt _ (by decide)
    have hnext : bits * 2 ^ 6 + b.toNat % 2 ^ 6 < m * 2 ^ 6 := by omega
    have hrest := ih hnext
    rwa [Nat.mul_assoc, ← Nat.pow_succ'] at hrest

/-- There is no UTF-8 for a code point in fewer bytes. -/
theorem IsUtf8.length_le (h : IsUtf8 bs wch) : (encode wch).length ≤ bs.length := by
  rw [length_encode]
  cases h with
  | single b hb =>
    have hb : b.toNat < 0x80 := hb
    rw [utf8Size, if_pos hb]
    exact Nat.le_refl 1
  | several lead conts hne hlength hlead hconts =>
    have hlt := payload_lt (Nat.mod_lt lead.toNat (Nat.two_pow_pos (6 - conts.length))) conts
    have hpos := List.length_pos_iff.mpr hne
    rw [List.length_cons]
    generalize payload (lead.toNat % 2 ^ (6 - conts.length)) conts = wch at hlt
    generalize conts.length = n at hlength hlt hpos
    unfold utf8Size
    obtain rfl | rfl | rfl | rfl | rfl : n = 1 ∨ n = 2 ∨ n = 3 ∨ n = 4 ∨ n = 5 := by omega
    all_goals
      simp only [Nat.reduceSub, Nat.reducePow, Nat.reduceMul] at hlt
      split_ifs
      all_goals omega

/-- The first byte says how many bytes there are. -/
theorem length_eq_of_lead (lead : UInt8) {n n' : Nat} (hn : n ≤ 5) (hn' : n' ≤ 5)
    (hlead : lead.toNat / 2 ^ (6 - n) = 2 ^ (n + 2) - 2)
    (hlead' : lead.toNat / 2 ^ (6 - n') = 2 ^ (n' + 2) - 2) : n = n' := by
  have hall : ∀ b : Fin 256, ∀ n < 6, ∀ n' < 6, b.1 / 2 ^ (6 - n) = 2 ^ (n + 2) - 2 →
      b.1 / 2 ^ (6 - n') = 2 ^ (n' + 2) - 2 → n = n' := by
    decide +kernel
  exact hall lead.toFin n (by omega) n' (by omega) hlead hlead'

/-- A first byte of several is not a byte by itself. -/
theorem not_lt_of_lead {lead : UInt8} {n : Nat} (hn : n ≤ 5)
    (hlead : lead.toNat / 2 ^ (6 - n) = 2 ^ (n + 2) - 2) : ¬ lead.toNat < 2 ^ 7 := by
  have hall : ∀ b : Fin 256, ∀ n < 6, b.1 / 2 ^ (6 - n) = 2 ^ (n + 2) - 2 → ¬ b.1 < 2 ^ 7 := by
    decide +kernel
  exact hall lead.toFin n (by omega) hlead

/-- No UTF-8 is the beginning of another one. -/
theorem IsUtf8.eq_of_isPrefix (h : IsUtf8 bs wch) (h' : IsUtf8 bs' wch') (hbs : bs <+: bs') :
    wch = wch' := by
  cases h with
  | single b hb =>
    cases h' with
    | single b' hb' => rw [(List.cons_prefix_cons.mp hbs).1]
    | several lead conts hne hlength hlead hconts =>
      rw [(List.cons_prefix_cons.mp hbs).1] at hb
      exact absurd hb (not_lt_of_lead hlength hlead)
  | several lead conts hne hlength hlead hconts =>
    cases h' with
    | single b' hb' =>
      rw [← (List.cons_prefix_cons.mp hbs).1] at hb'
      exact absurd hb' (not_lt_of_lead hlength hlead)
    | several lead' conts' hne' hlength' hlead' hconts' =>
      obtain ⟨rfl, hrest⟩ := List.cons_prefix_cons.mp hbs
      rw [hrest.eq_of_length (length_eq_of_lead lead hlength hlength' hlead hlead')]

/-- What is written of the code points is a prefix code. -/
theorem prefixCode_encode : PrefixCode {wch | wch ≤ 0x7fffffff} encode where
  ne_nil wch _ := List.ne_nil_of_length_pos (by rw [length_encode]; exact utf8Size_pos wch)
  eq_of_isPrefix _ h _ h' hbs := (isUtf8_encode h).eq_of_isPrefix (isUtf8_encode h') hbs

/-- The bytes that are written. -/
theorem eq_encode_of_wcharToUtf8 {size : Int} (h : wch ≤ 0x7fffffff)
    (hbs : wcharToUtf8 wch size = .bytes bs) : bs = encode wch := by
  rw [wcharToUtf8_eq_ite h] at hbs
  split at hbs
  · simp at hbs
  · exact (Encoded.bytes.inj hbs).symm

end Encode

/-- Sequences of which the same is written are the same. -/
theorem Utf8.encodeAll_inj {ws ws' : List Nat} (h : CodePoints ws) (h' : CodePoints ws')
    (heq : encodeAll ws = encodeAll ws') : ws = ws' :=
  prefixCode_encode.eq_of_flatMap_eq (fun wch hwch => (h wch hwch).2)
    (fun wch hwch => (h' wch hwch).2) heq

/-- Of a code point its UTF-8 is written, or nothing where there is no room for it; what is written
of a code point is not the beginning of what is written of another one; and sequences of which the
same is written are the same. A sequence of less than `2 ^ 31` code points is written. -/
theorem utf8_correct :
    (∀ wch ≤ 0x7fffffff, WritesUtf8 wch) ∧
    (∀ wch ≤ 0x7fffffff, ∀ wch' ≤ 0x7fffffff, ∀ size size' bs bs',
      wcharToUtf8 wch size = .bytes bs → wcharToUtf8 wch' size' = .bytes bs' → bs <+: bs' →
        wch = wch') ∧
    (∀ ws ws', CodePoints ws → CodePoints ws' → ∀ utf8, Utf8.fromUnicode ws = some utf8 →
      Utf8.fromUnicode ws' = some utf8 → ws = ws') ∧
    ∀ ws, CodePoints ws → ws.length < 2 ^ 31 → ∃ utf8, Utf8.fromUnicode ws = some utf8 := by
  refine ⟨fun wch h => ?_, fun wch h wch' h' size size' bs bs' hbs hbs' hle => ?_,
    fun ws ws' h h' utf8 hws hws' => ?_, fun ws h hlen => ?_⟩
  · refine ⟨encode wch, isUtf8_encode h, fun bs' h' => h'.length_le, fun size => ?_⟩
    rw [length_encode]
    exact wcharToUtf8_eq_ite h size
  · obtain rfl := eq_encode_of_wcharToUtf8 h hbs
    obtain rfl := eq_encode_of_wcharToUtf8 h' hbs'
    exact prefixCode_encode.eq_of_isPrefix wch h wch' h' hle
  · apply Utf8.encodeAll_inj h h'
    rw [← Utf8.eq_encodeAll_of_fromUnicodeLoop h hws]
    exact Utf8.eq_encodeAll_of_fromUnicodeLoop h' hws'
  · exact ⟨_, Utf8.fromUnicodeLoop_eq h (by omega)⟩

/-- A character of three bytes, and a sequence with it. -/
theorem utf8_correct_euro :
    WritesUtf8 0x20ac ∧ (0x20ac : Nat) = 0x20ac ∧ ([0x41, 0x20ac] : List Nat) = [0x41, 0x20ac] ∧
      ∃ utf8, Utf8.fromUnicode [0x41, 0x20ac] = some utf8 := by
  have h : CodePoints [0x41, 0x20ac] := by simp [CodePoints]
  refine ⟨utf8_correct.1 0x20ac (by decide), ?_, ?_,
    utf8_correct.2.2.2 [0x41, 0x20ac] h (by decide)⟩
  · exact utf8_correct.2.1 0x20ac (by decide) 0x20ac (by decide) 3 6 [0xe2, 0x82, 0xac]
      [0xe2, 0x82, 0xac] (by decide) (by decide) List.prefix_rfl
  · exact utf8_correct.2.2.1 [0x41, 0x20ac] [0x41, 0x20ac] h h [0x41, 0xe2, 0x82, 0xac]
      (by decide) (by decide)

end MosqCluster
