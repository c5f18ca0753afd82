import Mathlib.Algebra.BigOperators.Group.List.Basic
import Mathlib.Tactic.Ring

/-!
# Strings taken block by block

A string is cut into blocks of one width, of which the last one may be shorter. A function is run at
the beginning of every block and sees the whole rest of the string.

## Main definitions

* `blockCount`: the number of blocks;
* `blockwise`: the results of the function;
* `joinParts`: results that come with the number of their elements that count.

## Main results

* `block_induction`: a string is a list of blocks and a shorter rest;
* `blockwise_append` and `blockwise_last`: the results, one block at a time;
* `sum_blockwise_le` and `sum_blockwise_add_le`: bounds of a sum over the blocks;
* `flatten_blockwise_flatten`: block by block, what undoes the function undoes it for the string.
-/

variable {α β γ : Type}

/-- The number of blocks of a string of this length. -/
def blockCount (width len : Nat) : Nat := len / width + if len % width = 0 then 0 else 1

/-- The results of a function for the first blocks of a string. -/
def blockwise (f : List α → β) (width : Nat) : Nat → List α → List β
  | 0, _ => []
  | count + 1, s => f s :: blockwise f width count (s.drop width)

/-! ## Counting blocks -/

section Count

variable {width len count : Nat}

@[simp]
theorem blockCount_zero (width : Nat) : blockCount width 0 = 0 := by simp [blockCount]

/-- A block more. -/
theorem blockCount_add (hwidth : 0 < width) (len : Nat) :
    blockCount width (width + len) = blockCount width len + 1 := by
  rw [blockCount, blockCount, Nat.add_div_left _ hwidth, Nat.add_mod_left]
  omega

/-- The blocks cover the string. -/
theorem le_mul_blockCount (hwidth : 0 < width) (len : Nat) :
    len ≤ width * blockCount width len := by
  have hdiv := Nat.div_add_mod len width
  have hlt := Nat.mod_lt len hwidth
  rw [blockCount, Nat.mul_add]
  split_ifs <;> omega

/-- There are no more blocks than it takes. -/
theorem blockCount_le (h : len ≤ width * count) : blockCount width len ≤ count := by
  have hdiv := Nat.div_add_mod len width
  rw [blockCount]
  split_ifs with hmod
  · rw [Nat.add_zero]
    exact Nat.div_le_of_le_mul h
  · -- the block that is not full counts as well
    refine Nat.succ_le_of_lt (Nat.lt_of_mul_lt_mul_left (a := width) ?_)
    omega

/-- Not more than one block, but something. -/
theorem blockCount_of_le (hpos : 0 < len) (hle : len ≤ width) : blockCount width len = 1 := by
  have hupper : blockCount width len ≤ 1 := blockCount_le (by omega)
  have hlower := le_mul_blockCount (hpos.trans_le hle) len
  rcases Nat.eq_zero_or_pos (blockCount width len) with hzero | hone
  · rw [hzero] at hlower
    omega
  · omega

/-- A string of whole blocks. -/
theorem blockCount_of_mod_eq_zero (h : len % width = 0) : blockCount width len = len / width := by
  rw [blockCount, if_pos h, Nat.add_zero]

end Count

/-! ## One block at a time -/

/-- A string is a list of blocks and a shorter rest. -/
theorem block_induction {width : Nat} (hwidth : 0 < width) {motive : List α → Prop}
    (nil : motive []) (last : ∀ s, 0 < s.length → s.length < width → motive s)
    (block : ∀ b rest, b.length = width → motive rest → motive (b ++ rest)) (s : List α) :
    motive s := by
  -- the induction is on the length
  induction hlen : s.length using Nat.strong_induction_on generalizing s with
  | _ n ih =>
    rcases Nat.lt_or_ge s.length width with hlt | hle
    · rcases s.eq_nil_or_concat with rfl | ⟨_, _, rfl⟩
      · exact nil
      · exact last _ (by simp) hlt
    · rw [← List.take_append_drop width s]
      refine block _ _ (by rw [List.length_take]; omega) (ih (s.drop width).length ?_ _ rfl)
      rw [List.length_drop]
      omega

variable {width count : Nat}

/-- The results for a block and for what is behind it. -/
theorem blockwise_append {b : List α} (hwidth : 0 < width) (hb : b.length = width)
    (f : List α → β) (rest : List α) :
    blockwise f width (blockCount width (b ++ rest).length) (b ++ rest) =
      f (b ++ rest) :: blockwise f width (blockCount width rest.length) rest := by
  rw [List.length_append, hb, blockCount_add hwidth, blockwise, ← hb, List.drop_left]

/-- The result for the last block. -/
theorem blockwise_last {s : List α} (hpos : 0 < s.length) (hle : s.length ≤ width)
    (f : List α → β) : blockwise f width (blockCount width s.length) s = [f s] := by
  rw [blockCount_of_le hpos hle]
  rfl

/-- The results of one function after the other. -/
theorem map_blockwise (g : β → γ) (f : List α → β) (width count : Nat) (s : List α) :
    (blockwise f width count s).map g = blockwise (fun s => g (f s)) width count s := by
  induction count generalizing s with
  | zero => rfl
  | succ count ih => rw [blockwise, blockwise, List.map_cons, ih]

/-! ## Sums -/

/-- The sum over the blocks, where no block counts more than this. -/
theorem sum_blockwise_le {f : List α → Nat} {bound : Nat} (hf : ∀ s, f s ≤ bound)
    (width count : Nat) (s : List α) : (blockwise f width count s).sum ≤ bound * count := by
  induction count generalizing s with
  | zero => simp [blockwise]
  | succ count ih =>
    have hrest := ih (s.drop width)
    have hfirst := hf s
    rw [blockwise, List.sum_cons, Nat.mul_succ]
    omega

/-- The sum over the blocks, where one of them does not count. -/
theorem sum_blockwise_add_le {f : List α → Nat} {bound i : Nat} {s : List α}
    (hf : ∀ s, f s ≤ bound) (hi : i < count) (hzero : f (s.drop (width * i)) = 0) :
    (blockwise f width count s).sum + bound ≤ bound * count := by
  -- the induction is on the number of the block that does not count
  induction i generalizing count s with
  | zero =>
    obtain ⟨count, rfl⟩ : ∃ n, count = n + 1 := ⟨count - 1, by omega⟩
    rw [Nat.mul_zero, List.drop_zero] at hzero
    have hrest := sum_blockwise_le hf width count (s.drop width)
    rw [blockwise, List.sum_cons, hzero, Nat.mul_succ]
    omega
  | succ i ih =>
    obtain ⟨count, rfl⟩ : ∃ n, count = n + 1 := ⟨count - 1, by omega⟩
    have hrest := ih (s := s.drop width) (Nat.lt_of_succ_lt_succ hi) (by
      rw [List.drop_drop, ← hzero]
      congr 2
      ring)
    have hfirst := hf s
    rw [blockwise, List.sum_cons, Nat.mul_succ]
    omega

/-! ## Parts that count -/

/-- The parts one behind the other, cut to the sum of the numbers that come with them. -/
def joinParts (parts : List (Nat × List α)) : List α :=
  (parts.map Prod.snd).flatten.take (parts.map Prod.fst).sum

/-- A part that counts as a whole. -/
theorem joinParts_cons_of_eq {part : Nat × List α} (h : part.1 = part.2.length)
    (parts : List (Nat × List α)) : joinParts (part :: parts) = part.2 ++ joinParts parts := by
  rw [joinParts, List.map_cons, List.map_cons, List.flatten_cons, List.sum_cons, h,
    List.take_length_add_append, joinParts]

/-- The last part is cut. -/
theorem joinParts_singleton (part : Nat × List α) : joinParts [part] = part.2.take part.1 := by
  simp [joinParts]

/-- The sum bounds the length. -/
theorem length_joinParts_le (parts : List (Nat × List α)) :
    (joinParts parts).length ≤ (parts.map Prod.fst).sum :=
  List.length_take_le ..

section Length

variable {f : List α → Nat × List β} {bound : Nat} {s : List α}

/-- The length, where no part counts more than this. -/
theorem length_joinParts_blockwise_le (hf : ∀ s, (f s).1 ≤ bound) (width count : Nat)
    (s : List α) : (joinParts (blockwise f width count s)).length ≤ bound * count := by
  refine (length_joinParts_le _).trans ?_
  rw [map_blockwise]
  exact sum_blockwise_le hf width count s

/-- The length, where one of the parts does not count. -/
theorem length_joinParts_blockwise_add_le {i : Nat} (hf : ∀ s, (f s).1 ≤ bound)
    (hi : i < count) (hzero : (f (s.drop (width * i))).1 = 0) :
    (joinParts (blockwise f width count s)).length + bound ≤ bound * count := by
  refine (Nat.add_le_add_right (length_joinParts_le _) bound).trans ?_
  rw [map_blockwise]
  exact sum_blockwise_add_le hf hi hzero

end Length

/-! ## There and back -/

/-- The joined results have the length of all of them. -/
theorem length_flatten_blockwise {f : List α → List β} {m : Nat} (hf : ∀ s, (f s).length = m)
    (width count : Nat) (s : List α) :
    (blockwise f width count s).flatten.length = m * count := by
  induction count generalizing s with
  | zero => rfl
  | succ count ih =>
    rw [blockwise, List.flatten_cons, List.length_append, ih, hf, Nat.mul_succ, Nat.add_comm]

/-- The joined results from a block on. -/
theorem drop_flatten_blockwise {f : List α → List β} {m : Nat} (hf : ∀ s, (f s).length = m)
    (width count i : Nat) (s : List α) :
    (blockwise f width count s).flatten.drop (m * i) =
      (blockwise f width (count - i) (s.drop (width * i))).flatten := by
  induction i generalizing count s with
  | zero => simp
  | succ i ih =>
    cases count with
    | zero => simp [blockwise]
    | succ count =>
      have hsplit : m * (i + 1) = (f s).length + m * i := by
        rw [hf]
        ring
      rw [blockwise, List.flatten_cons, hsplit, List.drop_append, List.drop_eq_nil_of_le (by omega),
        List.nil_append, Nat.add_sub_cancel_left, ih, List.drop_drop, Nat.succ_sub_succ]
      congr 3
      ring

/-- Only the blocks that are taken matter. -/
theorem blockwise_take (f : List α → β) (width count : Nat) (s : List α) :
    blockwise (fun s => f (s.take width)) width count (s.take (width * count)) =
      blockwise (fun s => f (s.take width)) width count s := by
  induction count generalizing s with
  | zero => rfl
  | succ count ih =>
    rw [blockwise, blockwise, List.take_take, List.drop_take, Nat.mul_succ, Nat.add_sub_cancel,
      Nat.min_eq_left (Nat.le_add_left ..), ih]

/-- A function of single blocks that is undone by another one is undone for the whole string. -/
theorem flatten_blockwise_flatten {f g : List α → List α} {s : List α}
    (hf : ∀ b, (f b).length = width) (hinv : ∀ b, b.length = width → g (f b) = b)
    (hs : s.length = width * count) :
    (blockwise (fun s => g (s.take width)) width count
      (blockwise (fun s => f (s.take width)) width count s).flatten).flatten = s := by
  induction count generalizing s with
  | zero =>
    rw [Nat.mul_zero] at hs
    rw [List.length_eq_zero_iff.mp hs]
    rfl
  | succ count ih =>
    rw [Nat.mul_succ] at hs
    -- the first block, and the string behind it
    have htake : (s.take width).length = width := by rw [List.length_take]; omega
    have hdrop : (s.drop width).length = width * count := by rw [List.length_drop]; omega
    have hfirst := hf (s.take width)
    rw [blockwise, blockwise, List.flatten_cons, List.flatten_cons,
      List.take_left' hfirst, List.drop_left' hfirst, hinv _ htake, ih hdrop,
      List.take_append_drop]
