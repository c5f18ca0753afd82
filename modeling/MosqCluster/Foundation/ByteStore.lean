import Mathlib.Data.Nat.Digits.Defs

/-!
# Byte stores

A byte store is a file: bytes at addresses up to a size. It can be read and written anywhere; a
write behind the end makes it longer. Fixed-width numbers are stored with the least significant
byte first.

## Main definitions

* `ByteStore.read` and `ByteStore.write`;
* `ByteStore.Holds`: the bytes at an address, as a predicate that splits along concatenation;
* `leBytes` and `leNat`: the codec of fixed-width numbers.

## Main results

* `ByteStore.holds_append`: what a store holds may be split and joined;
* `ByteStore.holds_write` and `ByteStore.Holds.write_of_disjoint`: what holds after a write;
* `leNat_leBytes` and `leBytes_add`: the codec is exact below its bound, and splits.
-/

/-! ## Numbers of fixed width -/

/-- The `w` bytes of a number, the least significant first; higher digits are dropped. -/
def leBytes : Nat → Nat → List UInt8
  | 0, _ => []
  | w + 1, n => .ofNat n :: leBytes w (n / 256)

/-- The number with the given bytes, the least significant first. -/
def leNat : List UInt8 → Nat
  | [] => 0
  | b :: bs => b.toNat + 256 * leNat bs

@[simp]
theorem length_leBytes (w n : Nat) : (leBytes w n).length = w := by
  induction w generalizing n with
  | zero => rfl
  | succ w ih => simp [leBytes, ih]

/-- Reading back what was written, if it fits. -/
theorem leNat_leBytes {w n : Nat} (h : n < 256 ^ w) : leNat (leBytes w n) = n := by
  induction w generalizing n with
  | zero =>
    have : n = 0 := by simpa using h
    rw [this, leBytes, leNat]
  | succ w ih =>
    have hdiv : n / 256 < 256 ^ w := by
      rw [pow_succ] at h
      exact Nat.div_lt_of_lt_mul (by rwa [mul_comm])
    rw [leBytes, leNat, ih hdiv, UInt8.toNat_ofNat']
    omega

/-- A wide number is a narrow one followed by the digits it leaves out. -/
theorem leBytes_add (v w n : Nat) :
    leBytes (v + w) n = leBytes v n ++ leBytes w (n / 256 ^ v) := by
  induction v generalizing n with
  | zero => simp [leBytes]
  | succ v ih =>
    rw [Nat.succ_add, leBytes, leBytes, ih, List.cons_append, Nat.div_div_eq_div_mul, pow_succ']

/-- Zero fits in as few bytes as there are. -/
theorem leBytes_zero_right (w : Nat) : leBytes w 0 = List.replicate w 0 := by
  induction w with
  | zero => rfl
  | succ w ih => rw [leBytes, Nat.zero_div, ih, List.replicate_succ]; rfl

/-! ## Stores -/

/-- The bytes of a file. What `byte` says from `size` on is not part of it. -/
structure ByteStore where
  /-- The number of bytes. -/
  size : Nat
  /-- The byte at an address. -/
  byte : Nat → UInt8

namespace ByteStore

/-- A store of zero bytes. -/
def zeros (size : Nat) : ByteStore := ⟨size, fun _ => 0⟩

variable (f : ByteStore)

/-- The next `len` bytes from `off` on, fewer where the store ends before. -/
def read (off len : Nat) : List UInt8 :=
  (List.range (min len (f.size - off))).map fun i => f.byte (off + i)

/-- Put bytes at `off`. A gap between the end of the store and `off` becomes zero. -/
def write (off : Nat) (bs : List UInt8) : ByteStore :=
  if bs = [] then f
  else
    { size := max f.size (off + bs.length)
      byte := fun i =>
        if off ≤ i ∧ i < off + bs.length then bs.getD (i - off) 0
        else if i < f.size then f.byte i
        else 0 }

/-- The store has `bs` at `off`. -/
def Holds (off : Nat) (bs : List UInt8) : Prop :=
  off + bs.length ≤ f.size ∧ ∀ i (h : i < bs.length), f.byte (off + i) = bs[i]

variable {f} {off off' n : Nat} {bs cs : List UInt8}

/-- What is held lies within the store. -/
theorem Holds.le_size (h : f.Holds off bs) : off + bs.length ≤ f.size := h.1

/-- A read of exactly what is held gives it back. -/
theorem Holds.read_eq (h : f.Holds off bs) (hn : n = bs.length) : f.read off n = bs := by
  subst hn
  have hmin : min bs.length (f.size - off) = bs.length := by
    have := h.le_size
    omega
  apply List.ext_getElem
  · simp [read, hmin]
  · intro i _ hi
    simp [read, h.2 i hi]

/-- A string is held if its parts are held one behind the other. -/
theorem holds_append : f.Holds off (bs ++ cs) ↔ f.Holds off bs ∧ f.Holds (off + bs.length) cs := by
  constructor
  · rintro ⟨hsize, hbyte⟩
    rw [List.length_append] at hsize
    refine ⟨⟨by omega, fun i hi => ?_⟩, ⟨by omega, fun i hi => ?_⟩⟩
    · rw [hbyte i (by rw [List.length_append]; omega), List.getElem_append_left hi]
    · rw [add_assoc, hbyte (bs.length + i) (by rw [List.length_append]; omega),
        List.getElem_append_right (by omega)]
      simp
  · rintro ⟨⟨_, hbs⟩, hcs_size, hcs⟩
    refine ⟨by rw [List.length_append]; omega, fun i hi => ?_⟩
    rcases Nat.lt_or_ge i bs.length with h | h
    · rw [hbs i h, List.getElem_append_left h]
    · have hi' : i - bs.length < cs.length := by
        rw [List.length_append] at hi
        omega
      rw [List.getElem_append_right h, ← hcs (i - bs.length) hi', add_assoc]
      congr 2
      omega

/-- A store of zero bytes holds zero bytes. -/
theorem holds_zeros {size : Nat} (h : off + n ≤ size) :
    (zeros size).Holds off (List.replicate n 0) :=
  ⟨by simpa [zeros] using h, fun i hi => by simp [zeros]⟩

/-- The size after a write. -/
theorem size_write (hbs : bs ≠ []) : (f.write off bs).size = max f.size (off + bs.length) := by
  rw [write, if_neg hbs]

/-- A write does not make the store shorter. -/
theorem size_le_size_write : f.size ≤ (f.write off bs).size := by
  by_cases hbs : bs = []
  · rw [write, if_pos hbs]
  · rw [size_write hbs]
    exact le_max_left ..

/-- What was written is held. -/
theorem holds_write (hbs : bs ≠ []) : (f.write off bs).Holds off bs := by
  refine ⟨by rw [size_write hbs]; exact le_max_right .., fun i hi => ?_⟩
  simp [write, hbs, hi]

/-- What a write does not touch is still held. -/
theorem Holds.write_of_disjoint (h : f.Holds off bs)
    (hdisj : off + bs.length ≤ off' ∨ off' + cs.length ≤ off) :
    (f.write off' cs).Holds off bs := by
  by_cases hcs : cs = []
  · rwa [write, if_pos hcs]
  refine ⟨h.le_size.trans size_le_size_write, fun i hi => ?_⟩
  have hnot : ¬ (off' ≤ off + i ∧ off + i < off' + cs.length) := by omega
  have hsize : off + i < f.size := by
    have := h.le_size
    omega
  simp only [write, if_neg hcs, if_neg hnot, if_pos hsize]
  exact h.2 i hi

/-- Within what is held, a write replaces one part. -/
theorem Holds.write_part {pre mid post : List UInt8} (h : f.Holds off (pre ++ mid ++ post))
    {mid' : List UInt8} (hlen : mid'.length = mid.length) (hmid : mid' ≠ []) :
    (f.write (off + pre.length) mid').Holds off (pre ++ mid' ++ post) := by
  obtain ⟨hpremid, hpost⟩ := holds_append.mp h
  obtain ⟨hpre, -⟩ := holds_append.mp hpremid
  rw [List.length_append] at hpost
  refine holds_append.mpr ⟨holds_append.mpr ⟨?_, holds_write hmid⟩, ?_⟩
  · exact hpre.write_of_disjoint (.inl le_rfl)
  · rw [List.length_append, hlen]
    exact hpost.write_of_disjoint (.inr (by omega))

end ByteStore
