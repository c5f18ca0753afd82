import MosqCluster.Helper.Cache.NativeFile

/-!
# The layout of the file cache

Where no write runs into the next item, the file is what it is meant to be: the items stand one
behind the other, and every chain lists the items of its hash value in that order.

## Main definitions

* `NativeFile.Layout`: a file with the given items.

## Main results

* `Layout.chain_eq`: what a chain of the file lists;
* `Layout.fill`, `Layout.append_first` and `Layout.append_linked`: the three writes keep the layout.
-/

namespace MosqCluster

namespace NativeFile

/-- The items whose keys have the hash value `h`. -/
def bucket (h : Nat) (slots : List (Nat × Item)) : List (Nat × Item) :=
  slots.filter fun p => hash p.2.key = h

/-- The address of the first item, zero for none. -/
def headAddr : List (Nat × Item) → Nat
  | [] => 0
  | (addr, _) :: _ => addr

/-- Every item has the address of the next one of its bucket. -/
def Linked : List (Nat × Item) → Prop
  | [] => True
  | (_, item) :: rest => item.next = headAddr (bucket (hash item.key) rest) ∧ Linked rest

theorem linked_cons {p : Nat × Item} {rest : List (Nat × Item)} :
    Linked (p :: rest) ↔ p.2.next = headAddr (bucket (hash p.2.key) rest) ∧ Linked rest := Iff.rfl

/-- The given items stand in the file behind the chain heads, in this order. -/
structure Placed (f : ByteStore) (slots : List (Nat × Item)) : Prop where
  size_lt : f.size < 2 ^ 32
  heads_le : 8 * buckets ≤ f.size
  length_le : slots.length ≤ f.size
  held : ∀ p ∈ slots, f.Holds p.1 p.2.encode
  behind : ∀ p ∈ slots, 8 * buckets ≤ p.1
  apart : slots.Pairwise fun p q => p.1 + p.2.length ≤ q.1
  capcity_lt : ∀ p ∈ slots, p.2.capcity < 2 ^ 64

/-- The file consists of the chain heads and the given items, in this order. -/
structure Layout (f : ByteStore) (slots : List (Nat × Item)) : Prop extends Placed f slots where
  heads : ∀ h < buckets, f.Holds (8 * h) (leBytes 8 (headAddr (bucket h slots)))
  linked : Linked slots

variable {f : ByteStore} {slots before after : List (Nat × Item)} {item xr : Item}
  {h n addr : Nat} {key : Bytes} {now : Int64}

/-! ## Reading -/

/-- An item is read back as it was written. -/
theorem readItem_of_holds (hitem : f.Holds addr item.encode) (hcap : item.capcity < 2 ^ 64)
    (hnext : item.next < 2 ^ 64) (hsize : f.size < 2 ^ 63) : readItem f addr = some item := by
  have hlen := hitem.le_size
  rw [length_encode, Item.length] at hlen
  simp only [Item.encode, ByteStore.holds_append, List.length_append, length_leBytes] at hitem
  obtain ⟨⟨⟨hc, hn⟩, he⟩, ⟨hkl, hk⟩, hvl, hv⟩ := hitem
  -- The five numbers and the two strings, one after another.
  have hcr := hc.read_eq (n := 8) (by simp)
  have hnr := hn.read_eq (n := 8) (by simp)
  have her := he.read_eq (n := 8) (by simp)
  have hklr : leNat (f.read (addr + 24) 8) = item.key.length := by
    rw [hkl.read_eq (n := 8) (by simp), leNat_leBytes (by omega)]
  have hkr : f.read (addr + 32) item.key.length = item.key := hk.read_eq rfl
  have hvlr : leNat (f.read (addr + 32 + item.key.length) 8) = item.value.length := by
    have : addr + 32 + item.key.length = addr + (8 + 8 + 8) + (8 + item.key.length) := by omega
    rw [this, hvl.read_eq (n := 8) (by simp), leNat_leBytes (by omega)]
  have hvr : f.read (addr + 40 + item.key.length) item.value.length = item.value := by
    have : addr + 40 + item.key.length = addr + (8 + 8 + 8) + (8 + item.key.length) + 8 := by omega
    rw [this]
    exact hv.read_eq rfl
  have hshort : ¬ f.size < addr + 24 := by omega
  have hlong : ¬ (2 ^ 63 ≤ item.key.length ∨ 2 ^ 63 ≤ item.value.length) := by omega
  have hexp : (leNat (leBytes 8 item.expiresIn.toUInt64.toNat)) = item.expiresIn.toUInt64.toNat :=
    leNat_leBytes item.expiresIn.toUInt64.toNat_lt
  simp only [readItem, if_neg hshort, hklr, hvlr, if_neg hlong, readString, hkr, hvr, hcr, hnr]
  rw [show addr + 16 = addr + (8 + 8) from rfl, her, leNat_leBytes hcap, leNat_leBytes hnext, hexp]
  simp

theorem headAddr_bucket_mem (h : Nat) (slots : List (Nat × Item)) :
    headAddr (bucket h slots) = 0 ∨ ∃ p ∈ slots, headAddr (bucket h slots) = p.1 := by
  cases hb : bucket h slots with
  | nil => exact .inl rfl
  | cons p rest =>
    have hp : p ∈ bucket h slots := by rw [hb]; simp
    exact .inr ⟨p, (List.mem_filter.mp hp).1, rfl⟩

/-- The links lead along the bucket. -/
theorem chain_of_linked (hread : ∀ p ∈ slots, readItem f p.1 = some p.2)
    (hpos : ∀ p ∈ slots, p.1 ≠ 0) (hlinked : Linked slots) (hn : slots.length < n) :
    chain f n (headAddr (bucket h slots)) = some (bucket h slots) := by
  induction slots generalizing n with
  | nil =>
    obtain ⟨n, rfl⟩ : ∃ m, n = m + 1 := ⟨n - 1, by omega⟩
    rw [chain]
    rfl
  | cons p rest ih =>
    obtain ⟨addr, xr⟩ := p
    obtain ⟨hnext, hrest⟩ := hlinked
    rw [List.length_cons] at hn
    obtain ⟨n, rfl⟩ : ∃ m, n = m + 1 := ⟨n - 1, by omega⟩
    have hread' : ∀ q ∈ rest, readItem f q.1 = some q.2 := fun q hq => hread q (by simp [hq])
    have hpos' : ∀ q ∈ rest, q.1 ≠ 0 := fun q hq => hpos q (by simp [hq])
    by_cases hhash : hash xr.key = h
    · have hb : bucket h ((addr, xr) :: rest) = (addr, xr) :: bucket h rest := by
        simp [bucket, hhash]
      have h0 : addr ≠ 0 := hpos (addr, xr) (by simp)
      -- The first item of the bucket is read, and its link leads to the next.
      rw [hb, headAddr, chain, if_neg h0, hread (addr, xr) (by simp)]
      simp only [Option.bind_eq_bind, Option.bind_some]
      rw [hnext, hhash, ih hread' hpos' hrest (by omega), Option.bind_some]
    · -- The item is in another bucket, so that the chain passes by.
      have hb : bucket h ((addr, xr) :: rest) = bucket h rest := by simp [bucket, hhash]
      rw [hb]
      exact ih hread' hpos' hrest (by omega)

/-- Addresses of items are below the size of the file. -/
theorem Layout.addr_lt (hl : Layout f slots) {p : Nat × Item} (hp : p ∈ slots) : p.1 < f.size := by
  have := (hl.held p hp).le_size
  rw [length_encode, Item.length] at this
  omega

/-- A chain head is below the size of the file. -/
theorem Layout.headAddr_lt (hl : Layout f slots) (h : Nat) :
    headAddr (bucket h slots) < 2 ^ 32 := by
  obtain h0 | ⟨p, hp, heq⟩ := headAddr_bucket_mem h slots
  · omega
  · have := hl.addr_lt hp
    have := hl.size_lt
    omega

/-- The links are below the size of the file. -/
theorem Linked.next_lt (hlinked : Linked slots) (haddr : ∀ p ∈ slots, p.1 < n) (hn : 0 < n) :
    ∀ p ∈ slots, p.2.next < n := by
  induction slots with
  | nil => simp
  | cons q rest ih =>
    obtain ⟨hnext, hrest⟩ := hlinked
    intro p hp
    rcases List.mem_cons.mp hp with rfl | hp
    · rw [hnext]
      obtain h0 | ⟨p', hp', heq⟩ := headAddr_bucket_mem (hash p.2.key) rest
      · omega
      · rw [heq]
        exact haddr p' (by simp [hp'])
    · exact ih hrest (fun p hp => haddr p (by simp [hp])) p hp

/-- Every item is read back. -/
theorem Layout.readItem_eq (hl : Layout f slots) {p : Nat × Item} (hp : p ∈ slots) :
    readItem f p.1 = some p.2 := by
  have hsize := hl.size_lt
  have hnext := hl.linked.next_lt (fun q hq => (hl.addr_lt hq).trans hsize) (by simp) p hp
  exact readItem_of_holds (hl.held p hp) (hl.capcity_lt p hp) (by omega) (by omega)

/-- A chain lists the items of its hash value. -/
theorem Layout.chain_eq (hl : Layout f slots) (h : Nat) :
    chain f (fuel f) (headAddr (bucket h slots)) = some (bucket h slots) := by
  refine chain_of_linked (fun p hp => hl.readItem_eq hp) (fun p hp => ?_) hl.linked ?_
  · have := hl.behind p hp
    have : 0 < 8 * buckets := by decide
    omega
  · exact Nat.lt_succ_of_le hl.length_le

/-- The chain head as `Read` reads it. -/
theorem Layout.head_eq (hl : Layout f slots) (hh : h < buckets) :
    leNat (f.read (8 * h) 8) = headAddr (bucket h slots) := by
  rw [(hl.heads h hh).read_eq (by simp), leNat_leBytes]
  have := hl.headAddr_lt h
  omega

/-- The chain head as `Write` reads it. -/
theorem Layout.head_eq_four (hl : Layout f slots) (hh : h < buckets) :
    leNat (f.read (8 * h) 4) = headAddr (bucket h slots) := by
  have hheld := hl.heads h hh
  rw [leBytes_add 4 4, ByteStore.holds_append] at hheld
  rw [hheld.1.read_eq (by simp), leNat_leBytes (hl.headAddr_lt h)]

/-! ## Filling a slot -/

/-- A bucket does not change when an item is replaced by one with the same hash value, up to that
item. -/
theorem headAddr_bucket_replace (hhash : hash item.key = hash xr.key) :
    headAddr (bucket h (before ++ (addr, item) :: after)) =
      headAddr (bucket h (before ++ (addr, xr) :: after)) := by
  rw [bucket, bucket, List.filter_append, List.filter_append]
  cases before.filter fun p => hash p.2.key = h with
  | cons p ps => rfl
  | nil => by_cases hh : hash xr.key = h <;> simp [hhash, hh, headAddr]

/-- The links stay as they are when an item is replaced by one with the same hash value and link. -/
theorem Linked.replace (hlinked : Linked (before ++ (addr, xr) :: after))
    (hhash : hash item.key = hash xr.key) (hnext : item.next = xr.next) :
    Linked (before ++ (addr, item) :: after) := by
  induction before with
  | nil =>
    obtain ⟨hxr, hafter⟩ := hlinked
    exact ⟨by rw [hnext, hhash, hxr], hafter⟩
  | cons p before ih =>
    obtain ⟨hp, hrest⟩ := hlinked
    refine ⟨?_, ih hrest⟩
    rw [hp]
    exact (headAddr_bucket_replace hhash).symm

theorem encode_ne_nil (item : Item) : item.encode ≠ [] := by
  rw [← List.length_pos_iff, length_encode, Item.length]
  omega

/-- A new file has an item in the place of another one, where it ends before the next one starts
and nothing else has been touched. -/
theorem Placed.replace {g : ByteStore} (hp : Placed f (before ++ (addr, xr) :: after))
    (hsize : g.size < 2 ^ 32) (hle : f.size ≤ g.size) (hcap : item.capcity < 2 ^ 64)
    (hitem : g.Holds addr item.encode) (hfit : ∀ q ∈ after, addr + item.length ≤ q.1)
    (hkeep : ∀ off bs, f.Holds off bs →
      off + bs.length ≤ addr ∨ addr + item.length ≤ off → g.Holds off bs) :
    Placed g (before ++ (addr, item) :: after) := by
  have hmem : (addr, xr) ∈ before ++ (addr, xr) :: after := by simp
  have hapart := List.pairwise_append.mp hp.apart
  have hbefore : ∀ p ∈ before, p.1 + p.2.length ≤ addr := fun p hp =>
    hapart.2.2 p hp (addr, xr) (by simp)
  have hother : ∀ p ∈ before ++ (addr, item) :: after, p ∈ before ∨ p = (addr, item) ∨ p ∈ after :=
    fun p hp => by simpa using hp
  refine ⟨hsize, hp.heads_le.trans hle, ?_, fun p hmem' => ?_, fun p hmem' => ?_, ?_,
    fun p hmem' => ?_⟩
  · have := hp.length_le
    simp only [List.length_append, List.length_cons] at *
    omega
  · obtain h | rfl | h := hother p hmem'
    · -- What is before the item ends where it begins.
      refine hkeep _ _ (hp.held p (by simp [h])) (.inl ?_)
      rw [length_encode]
      exact hbefore p h
    · exact hitem
    · exact hkeep _ _ (hp.held p (by simp [h])) (.inr (hfit p h))
  · obtain h | rfl | h := hother p hmem'
    · exact hp.behind p (by simp [h])
    · exact hp.behind (addr, xr) hmem
    · exact hp.behind p (by simp [h])
  · have hafter := List.pairwise_cons.mp hapart.2.1
    refine List.pairwise_append.mpr ⟨hapart.1, List.pairwise_cons.mpr ⟨hfit, hafter.2⟩, ?_⟩
    intro p h q hq
    rcases List.mem_cons.mp hq with rfl | hq
    · exact hbefore p h
    · exact hapart.2.2 p h q (by simp [hq])
  · obtain h | rfl | h := hother p hmem'
    · exact hp.capcity_lt p (by simp [h])
    · exact hcap
    · exact hp.capcity_lt p (by simp [h])

/-- Filling a slot with an item of the same hash value keeps the layout. -/
theorem Layout.fill (hl : Layout f (before ++ (addr, xr) :: after))
    (hhash : hash item.key = hash xr.key) (hnext : item.next = xr.next)
    (hcap : item.capcity = xr.capcity) (hfit : ∀ q ∈ after, addr + item.length ≤ q.1)
    (hsize : (writeItem f addr item).size < 2 ^ 32) :
    Layout (writeItem f addr item) (before ++ (addr, item) :: after) := by
  have hmem : (addr, xr) ∈ before ++ (addr, xr) :: after := by simp
  have hcap' : item.capcity < 2 ^ 64 := hcap ▸ hl.capcity_lt (addr, xr) hmem
  have hplaced := hl.toPlaced.replace hsize ByteStore.size_le_size_write hcap'
    (ByteStore.holds_write (encode_ne_nil item)) hfit fun off bs hbs hdisj =>
      hbs.write_of_disjoint (by rwa [length_encode])
  refine ⟨hplaced, fun h hh => ?_, hl.linked.replace hhash hnext⟩
  rw [headAddr_bucket_replace hhash]
  refine (hl.heads h hh).write_of_disjoint (.inl ?_)
  have := hl.behind (addr, xr) hmem
  rw [length_leBytes]
  omega

/-! ## Going on at the end -/

/-- A bucket with one more item at the end. -/
theorem bucket_append_singleton (p : Nat × Item) :
    bucket h (slots ++ [p]) = bucket h slots ++ if hash p.2.key = h then [p] else [] := by
  by_cases hh : hash p.2.key = h <;> simp [bucket, hh]

/-- The first item of a bucket that is not empty stays the first. -/
theorem headAddr_append {cs ds : List (Nat × Item)} (hcs : cs ≠ []) :
    headAddr (cs ++ ds) = headAddr cs := by
  cases cs with
  | nil => exact absurd rfl hcs
  | cons p cs => rfl

/-- Nothing comes to be the first of a bucket when an item is linked to a new one at the end. -/
theorem headAddr_bucket_link {eof : Nat} (hhash : hash item.key = hash xr.key) :
    headAddr (bucket h (before ++ (addr, { xr with next := eof }) :: after ++ [(eof, item)])) =
      headAddr (bucket h (before ++ (addr, xr) :: after)) := by
  have hkeep : headAddr (bucket h (before ++ (addr, { xr with next := eof }) :: after)) =
      headAddr (bucket h (before ++ (addr, xr) :: after)) := headAddr_bucket_replace rfl
  rw [bucket_append_singleton, ← hkeep]
  by_cases heq : hash item.key = h
  · -- The bucket goes on to `addr` at least, so the new item is not its first.
    rw [headAddr_append]
    simp [bucket, ← hhash, heq]
  · rw [if_neg heq, List.append_nil]

/-- Links of other buckets stay as they are when an item is put at the end. -/
theorem Linked.append_of_ne (hlinked : Linked slots) (hnext : item.next = 0)
    (hother : ∀ p ∈ slots, hash p.2.key ≠ hash item.key) : Linked (slots ++ [(addr, item)]) := by
  induction slots with
  | nil => exact ⟨hnext, trivial⟩
  | cons p rest ih =>
    rw [List.cons_append, linked_cons]
    rw [linked_cons] at hlinked
    refine ⟨?_, ih hlinked.2 fun q hq => hother q (by simp [hq])⟩
    have hne : hash item.key ≠ hash p.2.key := (hother p (by simp)).symm
    rw [bucket_append_singleton, if_neg hne, List.append_nil, hlinked.1]

/-- The last item of a bucket may be linked to one that is put at the end. -/
theorem Linked.append (hlinked : Linked (before ++ (addr, xr) :: after)) (hnext : item.next = 0)
    (hhash : hash item.key = hash xr.key)
    (hlast : ∀ p ∈ after, hash p.2.key ≠ hash xr.key) {eof : Nat} :
    Linked (before ++ (addr, { xr with next := eof }) :: after ++ [(eof, item)]) := by
  induction before with
  | nil =>
    rw [List.nil_append, linked_cons] at hlinked
    rw [List.nil_append, List.cons_append, linked_cons]
    refine ⟨?_, hlinked.2.append_of_ne hnext fun p hp => hhash ▸ hlast p hp⟩
    have hempty : bucket (hash xr.key) after = [] :=
      List.filter_eq_nil_iff.mpr fun p hp => by simpa using hlast p hp
    rw [bucket_append_singleton, hempty, if_pos hhash]
    rfl
  | cons p before ih =>
    rw [List.cons_append, linked_cons] at hlinked
    rw [List.cons_append, List.cons_append, linked_cons]
    refine ⟨?_, ih hlinked.2⟩
    rw [hlinked.1]
    exact (headAddr_bucket_link hhash).symm

/-- An item may be put at the end of the file. -/
theorem Placed.append (hp : Placed f slots) (hcap : item.capcity < 2 ^ 64)
    (hsize : (writeItem f f.size item).size < 2 ^ 32) :
    Placed (writeItem f f.size item) (slots ++ [(f.size, item)]) := by
  have hgrow : (writeItem f f.size item).size = f.size + item.length := by
    rw [writeItem, ByteStore.size_write (encode_ne_nil item), length_encode]
    omega
  have hpos : 0 < item.length := by
    rw [Item.length]
    omega
  have hmem : ∀ p ∈ slots ++ [(f.size, item)], p ∈ slots ∨ p = (f.size, item) :=
    fun p hp => by simpa using hp
  -- All items end before the end of the file.
  have hend : ∀ p ∈ slots, p.1 + p.2.length ≤ f.size := fun p h => by
    rw [← length_encode]
    exact (hp.held p h).le_size
  refine ⟨hsize, ?_, ?_, fun p h => ?_, fun p h => ?_, ?_, fun p h => ?_⟩
  · have := hp.heads_le
    omega
  · have := hp.length_le
    rw [hgrow, List.length_append, List.length_singleton]
    omega
  · obtain h | rfl := hmem p h
    · refine (hp.held p h).write_of_disjoint (.inl ?_)
      rw [length_encode]
      exact hend p h
    · exact ByteStore.holds_write (encode_ne_nil item)
  · obtain h | rfl := hmem p h
    · exact hp.behind p h
    · exact hp.heads_le
  · refine List.pairwise_append.mpr ⟨hp.apart, List.pairwise_singleton .., ?_⟩
    intro p h q hq
    rw [List.mem_singleton] at hq
    rw [hq]
    exact hend p h
  · obtain h | rfl := hmem p h
    · exact hp.capcity_lt p h
    · exact hcap

/-- A write within the file does not change its size. -/
theorem size_write_of_le {off : Nat} {bs : Bytes} (h : off + bs.length ≤ f.size) :
    (f.write off bs).size = f.size := by
  by_cases hbs : bs = []
  · rw [ByteStore.write, if_pos hbs]
  · rw [ByteStore.size_write hbs]
    omega

/-- The first item of a bucket: its address goes to the chain head. -/
theorem Layout.append_first (hl : Layout f slots) (hempty : bucket (hash item.key) slots = [])
    (hnext : item.next = 0) (hcap : item.capcity < 2 ^ 64) {g : ByteStore}
    (hg : g = f.write (8 * hash item.key) (leBytes 4 f.size))
    (hsize : (writeItem g f.size item).size < 2 ^ 32) :
    Layout (writeItem g f.size item) (slots ++ [(f.size, item)]) := by
  have hhash := hash_lt item.key
  have hheads := hl.heads_le
  have hgsize : g.size = f.size := by
    rw [hg, size_write_of_le (by rw [length_leBytes]; omega)]
  have hplaced : Placed g slots := by
    refine ⟨hgsize ▸ hl.size_lt, hgsize ▸ hl.heads_le, hgsize ▸ hl.length_le, fun p hp => ?_,
      hl.behind, hl.apart, hl.capcity_lt⟩
    rw [hg]
    refine (hl.held p hp).write_of_disjoint (.inr ?_)
    have := hl.behind p hp
    rw [length_leBytes]
    omega
  rw [← hgsize] at hsize ⊢
  refine ⟨hplaced.append hcap hsize, fun h hh => ?_, hl.linked.append_of_ne hnext fun p hp => ?_⟩
  · refine ByteStore.Holds.write_of_disjoint ?_ (.inl (by rw [length_leBytes]; omega))
    rw [bucket_append_singleton, hg]
    by_cases heq : hash item.key = h
    · -- Four of the eight bytes of the head are written, and the others are zero.
      have hzero := hl.heads h hh
      rw [← heq, hempty, headAddr, leBytes_add 4 4, ← List.nil_append (leBytes 4 0)] at hzero
      have hlen : (leBytes 4 f.size).length = (leBytes 4 0).length := by simp
      have hwrite := hzero.write_part hlen (by simp [leBytes])
      have hhigh : f.size / 256 ^ 4 = 0 := Nat.div_eq_of_lt hl.size_lt
      rw [if_pos heq, ← heq, hempty, List.nil_append, headAddr, leBytes_add 4 4]
      rw [size_write_of_le (by rw [length_leBytes]; omega), hhigh]
      simpa using hwrite
    · rw [if_neg heq, List.append_nil]
      refine (hl.heads h hh).write_of_disjoint ?_
      rw [length_leBytes, length_leBytes]
      omega
  · have : p ∉ bucket (hash item.key) slots := by simp [hempty]
    simpa [bucket, hp] using this

/-- The link of an item may be overwritten. -/
theorem Placed.relink (hp : Placed f (before ++ (addr, xr) :: after)) (next : Nat) :
    Placed (f.write (addr + 8) (leBytes 8 next))
      (before ++ (addr, { xr with next }) :: after) := by
  have hmem : (addr, xr) ∈ before ++ (addr, xr) :: after := by simp
  have hxr := hp.held (addr, xr) hmem
  have hle := hxr.le_size
  rw [length_encode, Item.length] at hle
  have hsize : (f.write (addr + 8) (leBytes 8 next)).size = f.size := by
    rw [size_write_of_le (by rw [length_leBytes]; omega)]
  refine hp.replace (hsize ▸ hp.size_lt) hsize.ge (hp.capcity_lt (addr, xr) hmem) ?_ ?_ ?_
  · -- The link is the second number of the item.
    rw [Item.encode, List.append_assoc] at hxr
    have hlen : (leBytes 8 next).length = (leBytes 8 xr.next).length := by simp
    have hlink := hxr.write_part hlen (by simp [leBytes])
    rw [length_leBytes] at hlink
    rw [Item.encode, List.append_assoc]
    exact hlink
  · exact (List.pairwise_cons.mp (List.pairwise_append.mp hp.apart).2.1).1
  · intro off bs hbs hdisj
    rw [Item.length] at hdisj
    apply hbs.write_of_disjoint
    rw [length_leBytes]
    omega

/-- A further item of a bucket: its address goes to the last item before it. -/
theorem Layout.append_linked (hl : Layout f (before ++ (addr, xr) :: after))
    (hlast : ∀ p ∈ after, hash p.2.key ≠ hash xr.key) (hhash : hash item.key = hash xr.key)
    (hnext : item.next = 0) (hcap : item.capcity < 2 ^ 64) {g : ByteStore}
    (hg : g = f.write (addr + 8) (leBytes 8 f.size))
    (hsize : (writeItem g f.size item).size < 2 ^ 32) :
    Layout (writeItem g f.size item)
      (before ++ (addr, { xr with next := f.size }) :: after ++ [(f.size, item)]) := by
  have hmem : (addr, xr) ∈ before ++ (addr, xr) :: after := by simp
  have hle := (hl.held (addr, xr) hmem).le_size
  rw [length_encode, Item.length] at hle
  have hgsize : g.size = f.size := by
    rw [hg, size_write_of_le (by rw [length_leBytes]; omega)]
  -- Only the link of the last item changes.
  have hplaced : Placed g (before ++ (addr, { xr with next := f.size }) :: after) :=
    hg ▸ hl.toPlaced.relink f.size
  rw [← hgsize] at hsize
  have happend := hplaced.append hcap hsize
  rw [hgsize] at happend
  refine ⟨happend, fun h hh => ?_, hl.linked.append hnext hhash hlast⟩
  have hheads := hl.heads_le
  refine ByteStore.Holds.write_of_disjoint ?_ (.inl (by rw [length_leBytes]; omega))
  rw [headAddr_bucket_link hhash, hg]
  -- The chain heads stand before all items.
  refine (hl.heads h hh).write_of_disjoint (.inl ?_)
  have := hl.behind (addr, xr) hmem
  rw [length_leBytes]
  omega

end NativeFile

end MosqCluster
