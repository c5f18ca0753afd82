import Mathlib.Data.List.Lex
import MosqCluster.Foundation.Execution
import MosqCluster.Helper.XString

/-!
# The order of strings

The comparison operators of `helper/xstring.h`, each with its loop. The characters are signed. The
other operand is an `xstring`, a `std::string`, whose length is made an `int`, or a C string, which
is null or has its length by `strlen`.

## Main definitions

* `xstring.lt`, `xstring.gt`, `xstring.eq` and `xstring.ne`, and the overloads of each.

## Main results

* `xstring.returns_lt` and `xstring.returns_eq`: what the operators return, without an access
  outside an operand;
* `xstring.isStrictTotalOrder`: the order of the strings;
* `xstring.agree_xstring`, `xstring.agree_string` and `xstring.agree_chars`: the overloads for an
  operand with the same content.
-/

namespace MosqCluster.xstring

/-! ## The operators -/

/-- A turn of the loop of a comparison: the first character that differs decides, or else the sizes
do. -/
def compareTurn (less : Int8 → Int8 → Bool) (lessSize : Int → Int → Bool) (buffer : Bytes)
    (str : Nat → Option UInt8) (size : Int) (i : Nat) : Turn Nat Bool :=
  if i < buffer.length ∧ i < size then
    match buffer[i]?, str i with
    | some a, some b => if a = b then .next (i + 1) else .done (less a.toInt8 b.toInt8)
    | _, _ => .fault
  else .done (lessSize buffer.length size)

/-- A turn of the loop of `operator==`. -/
def equalTurn (buffer : Bytes) (str : Nat → Option UInt8) (i : Nat) : Turn Nat Bool :=
  if i < buffer.length then
    match buffer[i]?, str i with
    | some a, some b => if a = b then .next (i + 1) else .done false
    | _, _ => .fault
  else .done true

/-- An operand: its characters, and its size as an `int`. -/
structure Operand where
  str : Nat → Option UInt8
  size : Int

/-- An `xstring`, whose `operator[]` gives zero outside it. -/
def ofXString (s : Bytes) : Operand := ⟨fun i => some (s.getD i 0), s.length⟩

/-- A `std::string`; a zero byte is behind it. -/
def ofString (s : Bytes) : Operand := ⟨fun i => (s ++ [0])[i]?, (Int32.ofNat s.length).toInt⟩

/-- The characters at a pointer, by `strlen`. -/
def ofChars (s : Bytes) : Operand :=
  ⟨fun i => (cString s ++ [0])[i]?, (Int32.ofNat (cString s).length).toInt⟩

/-- A null pointer, where it is taken for an empty string. -/
def ofNull : Operand := ⟨fun _ => none, 0⟩

/-- `operator<` for an operand. -/
def less (s : Bytes) (o : Operand) : Execution Bool :=
  .loop (compareTurn (fun a b => a < b) (fun m n => m < n) s o.str o.size) 0

/-- `operator>` for an operand. -/
def greater (s : Bytes) (o : Operand) : Execution Bool :=
  .loop (compareTurn (fun a b => b < a) (fun m n => n < m) s o.str o.size) 0

/-- `operator==` for an operand. -/
def equal (s : Bytes) (o : Operand) : Execution Bool :=
  if (s.length : Int) ≠ o.size then .pure false else .loop (equalTurn s o.str) 0

/-- `operator<(const xstring&)`. -/
def lt (s t : Bytes) : Execution Bool := less s (ofXString t)

/-- `operator<(const std::string&)`. -/
def ltString (s t : Bytes) : Execution Bool := less s (ofString t)

/-- `operator<(const char*)`; `none` is `NULL`. -/
def ltChars (s : Bytes) (t : Option Bytes) : Execution Bool := less s (t.elim ofNull ofChars)

/-- `operator>(const xstring&)`. -/
def gt (s t : Bytes) : Execution Bool := lt t s

/-- `operator>(const std::string&)`. -/
def gtString (s t : Bytes) : Execution Bool := greater s (ofString t)

/-- `operator>(const char*)`. -/
def gtChars (s : Bytes) (t : Option Bytes) : Execution Bool := greater s (t.elim ofNull ofChars)

/-- `operator==(const xstring&)`. -/
def eq (s t : Bytes) : Execution Bool := equal s (ofXString t)

/-- `operator==(const std::string&)`. -/
def eqString (s t : Bytes) : Execution Bool := equal s (ofString t)

/-- `operator==(const char*)`, which reads the length of a null pointer. -/
def eqChars (s : Bytes) : Option Bytes → Execution Bool
  | none => .fault
  | some t => equal s (ofChars t)

/-- `operator!=(const xstring&)`. -/
def ne (s t : Bytes) : Execution Bool := (eq s t).bind fun b => .pure !b

/-- `operator!=(const std::string&)`. -/
def neString (s t : Bytes) : Execution Bool := (eqString s t).bind fun b => .pure !b

/-- `operator!=(const char*)`. -/
def neChars (s : Bytes) (t : Option Bytes) : Execution Bool := (eqChars s t).bind fun b => .pure !b

/-! ## What they return -/

/-- The operand has a content. -/
structure Operand.Holds (o : Operand) (t : Bytes) : Prop where
  str : ∀ i < t.length, o.str i = t[i]?
  size : o.size = t.length

section Returns

variable {s t : Bytes} {o : Operand}

theorem holds_ofXString (t : Bytes) : (ofXString t).Holds t := by
  refine ⟨fun i hi => ?_, rfl⟩
  rw [ofXString, List.getElem?_eq_getElem hi]
  exact congrArg some (by rw [List.getD_eq_getElem?_getD, List.getElem?_eq_getElem hi]; rfl)

theorem getElem?_append_zero {i : Nat} (h : i < t.length) : (t ++ [0])[i]? = t[i]? :=
  List.getElem?_append_left h

theorem holds_ofString (h : t.length < 2 ^ 31) : (ofString t).Holds t :=
  ⟨fun _ hi => getElem?_append_zero hi, Int32.toInt_ofNat_of_lt h⟩

/-- A C string with a content of an `xstring`, which has no zero byte. -/
theorem holds_ofChars (hzero : 0 ∉ t) (h : t.length < 2 ^ 31) (rest : Bytes) :
    (ofChars (t ++ 0 :: rest)).Holds t := by
  have hcString : cString (t ++ 0 :: rest) = t := by
    rw [cString, List.takeWhile_append_of_pos fun b hb => ?_, List.takeWhile_cons_of_neg (by simp),
      List.append_nil]
    have : b ≠ 0 := fun h0 => hzero (h0 ▸ hb)
    simpa using this
  rw [ofChars, hcString]
  exact ⟨fun _ hi => getElem?_append_zero hi, Int32.toInt_ofNat_of_lt h⟩

/-- The first characters that differ decide, or the sizes. -/
def lexicographic (less : Int8 → Int8 → Bool) (lessSize : Int → Int → Bool) : Bytes → Bytes → Bool
  | a :: s, b :: t =>
    if a = b then lexicographic less lessSize s t else less a.toInt8 b.toInt8
  | s, t => lessSize s.length t.length

theorem lexicographic_of_end {less : Int8 → Int8 → Bool} {lessSize : Int → Int → Bool}
    {s' t' : Bytes} (hend : s' = [] ∨ t' = []) :
    lexicographic less lessSize s' t' = lessSize s'.length t'.length := by
  unfold lexicographic
  split
  · simp at hend
  · rfl

/-- What is left of two strings behind an index. -/
structure Rest (s t s' t' : Bytes) (i : Nat) : Prop where
  left : s.drop i = s' ∧ s.length = i + s'.length
  right : t.drop i = t' ∧ t.length = i + t'.length

theorem Rest.next {a b : UInt8} {s' t' : Bytes} {i : Nat} (h : Rest s t (a :: s') (b :: t') i) :
    Rest s t s' t' (i + 1) ∧ s[i]? = some a ∧ t[i]? = some b := by
  obtain ⟨⟨hs, hslen⟩, ht, htlen⟩ := h
  rw [List.length_cons] at hslen htlen
  refine ⟨⟨⟨?_, by omega⟩, ?_, by omega⟩, ?_, ?_⟩
  · rw [← List.drop_drop, hs, List.drop_one, List.tail_cons]
  · rw [← List.drop_drop, ht, List.drop_one, List.tail_cons]
  · rw [← List.head?_drop, hs, List.head?_cons]
  · rw [← List.head?_drop, ht, List.head?_cons]

theorem rest_zero (s t : Bytes) : Rest s t s t 0 :=
  ⟨⟨List.drop_zero, (Nat.zero_add _).symm⟩, List.drop_zero, (Nat.zero_add _).symm⟩

/-- The loop of a comparison from an index on, where the characters before are the same. -/
theorem returns_compare_loop {less : Int8 → Int8 → Bool} {lessSize : Int → Int → Bool}
    (hshift : ∀ m n k : Int, lessSize (k + m) (k + n) = lessSize m n) (ho : o.Holds t)
    {s' t' : Bytes} {i : Nat} (h : Rest s t s' t' i) :
    (Execution.loop (compareTurn less lessSize s o.str o.size) i).Returns
      (lexicographic less lessSize s' t') := by
  induction s' generalizing t' i with
  | nil =>
    -- the sizes are compared, which differ as what is left does
    apply Execution.returns_loop_of_done
    rw [lexicographic_of_end (.inl rfl), compareTurn, ho.size, if_neg, h.left.2, h.right.2,
      Int.natCast_add, Int.natCast_add, hshift]
    rw [h.left.2]
    simp
  | cons a s' ih =>
    match t', h with
    | [], h =>
      apply Execution.returns_loop_of_done
      rw [lexicographic_of_end (.inr rfl), compareTurn, ho.size, if_neg, h.left.2, h.right.2,
        Int.natCast_add, Int.natCast_add, hshift]
      rw [h.right.2]
      simp
    | b :: t', h =>
      obtain ⟨hnext, ha, hb⟩ := h.next
      have hslen := h.left.2
      have htlen := h.right.2
      rw [List.length_cons] at hslen htlen
      have hturn : compareTurn less lessSize s o.str o.size i =
          if a = b then .next (i + 1) else .done (less a.toInt8 b.toInt8) := by
        rw [compareTurn, ho.size, if_pos ⟨by omega, by omega⟩, ha, ho.str i (by omega), hb]
      by_cases heq : a = b
      · rw [if_pos heq] at hturn
        rw [Execution.returns_loop_of_next hturn, lexicographic, if_pos heq]
        exact ih hnext
      · rw [if_neg heq] at hturn
        rw [lexicographic, if_neg heq]
        exact Execution.returns_loop_of_done hturn

/-- The loop of `operator==` from an index on, for strings of one size. -/
theorem returns_equal_loop (ho : o.Holds t) {s' t' : Bytes} (hlength : s'.length = t'.length)
    {i : Nat} (h : Rest s t s' t' i) :
    (Execution.loop (equalTurn s o.str) i).Returns (decide (s' = t')) := by
  induction s' generalizing t' i with
  | nil =>
    obtain rfl := List.length_eq_zero_iff.mp hlength.symm
    have hend : ¬ i < s.length := by
      rw [h.left.2]
      exact Nat.lt_irrefl _
    apply Execution.returns_loop_of_done
    rw [equalTurn, if_neg hend]
    rfl
  | cons a s' ih =>
    match t', hlength, h with
    | b :: t', hlength, h =>
      obtain ⟨hnext, ha, hb⟩ := h.next
      have hslen := h.left.2
      have htlen := h.right.2
      rw [List.length_cons] at hslen htlen
      have hturn : equalTurn s o.str i = if a = b then .next (i + 1) else .done false := by
        rw [equalTurn, if_pos (by omega), ha, ho.str i (by omega), hb]
      by_cases heq : a = b
      · rw [if_pos heq] at hturn
        rw [Execution.returns_loop_of_next hturn, heq]
        have hrest := ih (by simpa using hlength) hnext
        simpa only [List.cons.injEq, true_and] using hrest
      · rw [if_neg heq] at hturn
        have hne : decide (a :: s' = b :: t') = false := by simp [heq]
        rw [hne]
        exact Execution.returns_loop_of_done hturn

/-- The comparison of the source is that of the model. -/
theorem lexicographic_lt (s t : Bytes) :
    lexicographic (fun a b => a < b) (fun m n => m < n) s t = xstringLess s t := by
  fun_induction xstringLess s t with
  | case1 t =>
    rw [lexicographic_of_end (.inl rfl)]
    cases t <;> simp
  | case2 a s =>
    rw [lexicographic_of_end (.inr rfl), decide_eq_false_iff_not, List.length_nil, List.length_cons]
    omega
  | case3 a s t ih => rw [lexicographic, if_pos rfl, ih]
  | case4 a s b t hne => rw [lexicographic, if_neg hne]

/-- The comparison the other way is that of the operands the other way. -/
theorem lexicographic_swap (less : Int8 → Int8 → Bool) (lessSize : Int → Int → Bool) (s t : Bytes) :
    lexicographic (fun a b => less b a) (fun m n => lessSize n m) s t =
      lexicographic less lessSize t s := by
  induction s generalizing t with
  | nil => rw [lexicographic_of_end (.inl rfl), lexicographic_of_end (.inr rfl)]
  | cons a s ih =>
    cases t with
    | nil => rw [lexicographic_of_end (.inr rfl), lexicographic_of_end (.inl rfl)]
    | cons b t =>
      rw [lexicographic, lexicographic, ih]
      by_cases heq : a = b
      · rw [if_pos heq, if_pos heq.symm]
      · rw [if_neg heq, if_neg (Ne.symm heq)]

theorem lexicographic_gt (s t : Bytes) :
    lexicographic (fun a b => b < a) (fun m n => n < m) s t = xstringLess t s :=
  (lexicographic_swap (fun a b => a < b) (fun m n => m < n) s t).trans (lexicographic_lt t s)

/-- `operator<` for an operand with a content. -/
theorem returns_less (ho : o.Holds t) : (less s o).Returns (xstringLess s t) := by
  rw [← lexicographic_lt]
  exact returns_compare_loop (fun m n k => by simp) ho (rest_zero s t)

/-- `operator>` for an operand with a content. -/
theorem returns_greater (ho : o.Holds t) : (greater s o).Returns (xstringLess t s) := by
  rw [← lexicographic_gt]
  exact returns_compare_loop (fun m n k => by simp) ho (rest_zero s t)

/-- `operator==` for an operand with a content. -/
theorem returns_equal (ho : o.Holds t) : (equal s o).Returns (decide (s = t)) := by
  rw [equal, ho.size]
  by_cases hlength : s.length = t.length
  · rw [if_neg (by omega)]
    exact returns_equal_loop ho hlength (rest_zero s t)
  · have hne : decide (s = t) = false := by
      rw [decide_eq_false_iff_not]
      rintro rfl
      exact hlength rfl
    rw [if_pos (by omega), hne]
    exact Execution.returns_pure.mpr rfl

end Returns

/-! ## The order -/

section Order

variable {s t : Bytes}

/-- The order of the characters. -/
def charLess (a b : UInt8) : Prop := a.toInt8 < b.toInt8

instance isStrictTotalOrder_charLess : IsStrictTotalOrder UInt8 charLess where
  irrefl a := Int8.lt_irrefl
  trans a b c := Int8.lt_trans
  trichotomous a b hab hba := by
    rw [charLess, Int8.lt_iff_toInt_lt] at hab hba
    have heq : a.toInt8.toInt = b.toInt8.toInt := by omega
    simpa using congrArg Int8.toUInt8 (Int8.toInt_inj.mp heq)

/-- The order of strings is the lexicographic one. -/
theorem xstringLess_iff_lex : xstringLess s t = true ↔ List.Lex charLess s t := by
  fun_induction xstringLess s t with
  | case1 t =>
    cases t with
    | nil => simp
    | cons b t => exact iff_of_true rfl .nil
  | case2 a s => exact iff_of_false (by simp) (by rintro ⟨⟩)
  | case3 a s t ih => rw [ih, List.lex_cons_iff]
  | case4 a s b t hne =>
    rw [decide_eq_true_iff]
    constructor
    · exact fun h => List.Lex.rel h
    · intro h
      cases h with
      | rel h => exact h
      | cons _ => exact absurd rfl hne

/-- The order of strings is a strict total order. -/
instance isStrictTotalOrder : IsStrictTotalOrder Bytes fun s t => xstringLess s t = true := by
  have hlex : IsStrictTotalOrder Bytes (List.Lex charLess) :=
    { isStrictWeakOrder_of_isOrderConnected with }
  have hiff : (fun s t => xstringLess s t = true) = List.Lex charLess := by
    ext s t
    exact xstringLess_iff_lex
  rwa [hiff]

end Order

/-- What the operators for an operand return where it has a content. -/
structure Agree (s t : Bytes) (lt gt eq ne : Execution Bool) : Prop where
  lt : lt.Returns (xstringLess s t)
  gt : gt.Returns (xstringLess t s)
  eq : eq.Returns (decide (s = t))
  ne : ne.Returns (decide (s ≠ t))

theorem returns_not {c : Execution Bool} {p : Prop} [Decidable p] (h : c.Returns (decide p)) :
    (c.bind fun b => .pure !b).Returns (decide ¬ p) := by
  rw [h.bind, Execution.returns_pure, decide_not]

theorem agree_xstring (s t : Bytes) : Agree s t (lt s t) (gt s t) (eq s t) (ne s t) :=
  ⟨returns_less (holds_ofXString t), returns_less (holds_ofXString s),
    returns_equal (holds_ofXString t), returns_not (returns_equal (holds_ofXString t))⟩

theorem agree_string (s : Bytes) {t : Bytes} (h : t.length < 2 ^ 31) :
    Agree s t (ltString s t) (gtString s t) (eqString s t) (neString s t) :=
  ⟨returns_less (holds_ofString h), returns_greater (holds_ofString h),
    returns_equal (holds_ofString h), returns_not (returns_equal (holds_ofString h))⟩

/-- A C string has the content up to its zero byte; behind it there may be anything. -/
theorem agree_chars (s : Bytes) {t : Bytes} (hzero : 0 ∉ t) (h : t.length < 2 ^ 31) (rest : Bytes) :
    Agree s t (ltChars s (some (t ++ 0 :: rest))) (gtChars s (some (t ++ 0 :: rest)))
      (eqChars s (some (t ++ 0 :: rest))) (neChars s (some (t ++ 0 :: rest))) :=
  have ho := holds_ofChars hzero h rest
  ⟨returns_less ho, returns_greater ho, returns_equal ho, returns_not (returns_equal ho)⟩

end MosqCluster.xstring
