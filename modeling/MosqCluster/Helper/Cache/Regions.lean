import MosqCluster.Helper.Cache.Refinement

/-!
# The regions of the file cache

What `Write` does to the layout of the file. Each item claims the bytes from its address on, as many
as its capacity says, and never has so many. `Write` appends at the end of the file and not at the
end of the last region, so that any item behind the first one starts within the region of another.

## Main definitions

* `NativeFile.setTraced` and `NativeFile.traced`: the calls of `Set`, with the items they write;
* `NativeFile.WellLaid`: the layout that the file is meant to have;
* `NativeFile.KeepsRegions`: the calls that keep it.

## Main results

* `NativeFile.map_setTraced`: the items are written by `Set`;
* `NativeFile.wellLaid_iff_keepsRegions`: the layout is kept as long as all items go into one slot.
-/

namespace MosqCluster

namespace NativeFile

/-! ## The items that are written -/

/-- A call of `WriteItem`. -/
structure ItemWrite where
  addr : Nat
  item : Item

/-- The loop of `NativeFile::Write`, with the calls of `WriteItem`. -/
def writeLoopTraced (item : Item) (now : Int64) (eof : Nat) :
    Nat → ByteStore → Nat → List ItemWrite → Option (ByteStore × List ItemWrite)
  | 0, _, _, _ => none
  | fuel + 1, f, addr, log =>
    if addr = 0 then some (f, log)
    else do
      let xr ← readItem f addr
      if xr.key = item.key then
        if xr.capcity < item.capcity then
          let emptied := { xr with key := [], value := [], expiresIn := 0 }
          writeLoopTraced item now eof fuel (writeItem f xr.next emptied) xr.next
            (log ++ [⟨xr.next, emptied⟩])
        else some (writeItem f addr (xr.fill item), log ++ [⟨addr, xr.fill item⟩])
      else if item.capcity ≤ xr.capcity ∧ xr.expiresIn < now then
        some (writeItem f addr (xr.fill item), log ++ [⟨addr, xr.fill item⟩])
      else if xr.next = 0 then
        some (writeItem (f.write (addr + 8) (leBytes 8 eof)) eof item, log ++ [⟨eof, item⟩])
      else writeLoopTraced item now eof fuel f xr.next log

/-- `NativeFile::Write`, with the calls of `WriteItem`. -/
def writeTraced (f : ByteStore) (item : Item) (now : Int64) (log : List ItemWrite) :
    Option (ByteStore × List ItemWrite) :=
  let addr := leNat (f.read (8 * hash item.key) 4)
  if addr ≠ 0 then writeLoopTraced item now f.size (fuel f) f addr log
  else
    some (writeItem (f.write (8 * hash item.key) (leBytes 4 f.size)) f.size item,
      log ++ [⟨f.size, item⟩])

/-- `NativeFile::Set`, with the calls of `WriteItem`. -/
def setTraced (f : ByteStore) (call : SetCall) (log : List ItemWrite) :
    Option (ByteStore × List ItemWrite) :=
  if 0 ≤ call.expiresIn ∧ 2 ^ 63 ≤ call.now.toInt + call.expiresIn.toInt then none
  else writeTraced f (newItem call.key call.value call.expiresIn call.now) call.later log

theorem map_writeLoopTraced (item : Item) (now : Int64) (eof n : Nat) (f : ByteStore) (addr : Nat)
    (log : List ItemWrite) :
    (writeLoopTraced item now eof n f addr log).map Prod.fst =
      writeLoop item now eof n f addr := by
  induction n generalizing f addr log with
  | zero => rfl
  | succ n ih =>
    rw [writeLoopTraced, writeLoop]
    split_ifs
    · rfl
    · cases readItem f addr with
      | none => rfl
      | some xr =>
        simp only [Option.bind_eq_bind, Option.bind_some]
        split_ifs <;> simp [ih]

/-- The file is that of `Set`. -/
theorem map_setTraced (f : ByteStore) (call : SetCall) (log : List ItemWrite) :
    (setTraced f call log).map Prod.fst =
      set f call.key call.value call.expiresIn call.now call.later := by
  unfold setTraced set writeTraced write
  dsimp only
  split_ifs
  · rfl
  · exact map_writeLoopTraced ..
  · rfl

/-- A file, with all items that have been written. -/
structure Traced where
  file : ByteStore
  log : List ItemWrite

/-- Calls of `Set` on a new file, while the file stays below 4 GiB. -/
def traced : TransitionSystem Traced SetCall where
  init := ⟨fresh, []⟩
  next s call :=
    match setTraced s.file call s.log with
    | some (file, log) => if file.size < 2 ^ 32 then some ⟨file, log⟩ else none
    | none => none

/-! ## The layout -/

/-- An emptied item. -/
def Item.Free (item : Item) : Prop := item.key = [] ∧ item.value = [] ∧ item.expiresIn = 0

/-- The chain head of a hash value. -/
def headOf (f : ByteStore) (h : Nat) : Nat := leNat (f.read (8 * h) 8)

/-- The layout of the file. -/
structure WellLaid (s : Traced) : Prop where
  /-- A chain head is zero or the address of an item. -/
  heads : ∀ h < buckets, headOf s.file h = 0 ∨ ∃ w ∈ s.log, w.addr = headOf s.file h
  /-- All items were written behind the chain heads. -/
  behind : ∀ w ∈ s.log, 8 * buckets ≤ w.addr
  /-- What one item claims, no other one does. -/
  apart : ∀ w ∈ s.log, ∀ w' ∈ s.log, w.addr ≠ w'.addr →
    w.addr + w.item.capcity ≤ w'.addr ∨ w'.addr + w'.item.capcity ≤ w.addr
  /-- All items were, and are, within what they claim. -/
  fits : ∀ w ∈ s.log, w.item.length ≤ w.item.capcity ∧
    ∃ item, readItem s.file w.addr = some item ∧ item.capcity = w.item.capcity ∧
      item.length ≤ item.capcity
  /-- A chain ends, and has the items of its hash value and emptied ones. -/
  chains : ∀ h < buckets, ∃ n chained, chain s.file n (headOf s.file h) = some chained ∧
    ∀ p ∈ chained, (∃ w ∈ s.log, w.addr = p.1) ∧ (hash p.2.key = h ∨ p.2.Free)

/-- The file has no items yet, or `Write` stops at a slot with enough room. -/
def KeepsRegions (s : Traced) (call : SetCall) : Prop :=
  let item := newItem call.key call.value call.expiresIn call.now
  s.file.size = 8 * buckets ∨
    (stopped s.file item call.later).head?.any (fun p => item.capcity ≤ p.2.capcity) = true

instance (s : Traced) (call : SetCall) : Decidable (KeepsRegions s call) :=
  inferInstanceAs (Decidable (_ ∨ _))

variable {s s' : Traced} {call : SetCall} {file : ByteStore} {log : List ItemWrite} {xr item : Item}

/-! ## One slot -/

/-- The only item of the file is one behind the chain heads, and the file ends before it claims
to. -/
structure Single (s : Traced) (xr : Item) : Prop where
  layout : Layout s.file [(8 * buckets, xr)]
  length_lt : xr.length < xr.capcity
  size_lt : s.file.size < 8 * buckets + xr.capcity
  logged : s.log ≠ []
  log : ∀ w ∈ s.log, w.addr = 8 * buckets ∧ w.item.capcity = xr.capcity ∧
    w.item.length ≤ w.item.capcity

/-- An item never fills the slot that `Set` asks for. -/
theorem length_newItem_lt (key value : Bytes) (expiresIn now : Int64) :
    (newItem key value expiresIn now).length < (newItem key value expiresIn now).capcity := by
  simp only [newItem, capacity, Item.length]
  omega

/-- A file without items is laid out. -/
theorem wellLaid_init : WellLaid traced.init where
  heads h hh := .inl (layout_fresh.head_eq hh)
  behind := nofun
  apart := nofun
  fits := nofun
  chains h hh := by
    refine ⟨fuel fresh, [], ?_, nofun⟩
    rw [headOf, show traced.init.file = fresh from rfl, layout_fresh.head_eq hh]
    exact layout_fresh.chain_eq h

/-- So is a file with one item. -/
theorem Single.wellLaid (hs : Single s xr) : WellLaid s := by
  obtain ⟨w₀, hw₀⟩ := List.exists_mem_of_ne_nil _ hs.logged
  have haddr : ∃ w ∈ s.log, w.addr = 8 * buckets := ⟨w₀, hw₀, (hs.log w₀ hw₀).1⟩
  have hbucket : ∀ h, ∀ p ∈ bucket h [(8 * buckets, xr)], p = (8 * buckets, xr) ∧
      hash xr.key = h := by
    intro h p hp
    obtain ⟨hmem, hhash⟩ := List.mem_filter.mp hp
    obtain rfl := List.mem_singleton.mp hmem
    exact ⟨rfl, by simpa using hhash⟩
  refine ⟨fun h hh => ?_, fun w hw => (hs.log w hw).1.ge, fun w hw w' hw' hne => ?_,
    fun w hw => ?_, fun h hh => ?_⟩
  · rw [headOf, hs.layout.head_eq hh]
    refine (headAddr_bucket_mem h _).imp_right ?_
    rintro ⟨p, hp, heq⟩
    obtain rfl := List.mem_singleton.mp hp
    rwa [heq]
  · exact absurd ((hs.log w hw).1.trans (hs.log w' hw').1.symm) hne
  · obtain ⟨haddr, hcap, hlen⟩ := hs.log w hw
    refine ⟨hlen, xr, ?_, hcap.symm, hs.length_lt.le⟩
    rw [haddr]
    exact hs.layout.readItem_eq List.mem_cons_self
  · -- The chain of a bucket is the item, or nothing.
    refine ⟨fuel s.file, bucket h [(8 * buckets, xr)], ?_, fun p hp => ?_⟩
    · rw [headOf, hs.layout.head_eq hh]
      exact hs.layout.chain_eq h
    · obtain ⟨rfl, hhash⟩ := hbucket h p hp
      exact ⟨haddr, .inl hhash⟩

/-- A call that comes back has written its item. -/
theorem writeTraced_of_next (hnext : traced.next s call = some s') :
    writeTraced s.file (newItem call.key call.value call.expiresIn call.now) call.later s.log =
      some (s'.file, s'.log) ∧ s'.file.size < 2 ^ 32 := by
  simp only [traced] at hnext
  split at hnext
  · next file log hset =>
    obtain ⟨hsize, hs'⟩ := Option.ite_none_right_eq_some.mp hnext
    obtain rfl := Option.some.inj hs'
    unfold setTraced at hset
    split_ifs at hset
    exact ⟨hset, hsize⟩
  · cases hnext

/-- Where a bucket is empty, the item comes to the end of the file. -/
theorem writeTraced_of_bucket {slots : List (Nat × Item)} {f : ByteStore} (hl : Layout f slots)
    (hempty : bucket (hash item.key) slots = []) (now : Int64) (log : List ItemWrite) :
    writeTraced f item now log =
      some (writeItem (f.write (8 * hash item.key) (leBytes 4 f.size)) f.size item,
        log ++ [⟨f.size, item⟩]) := by
  rw [writeTraced, hl.head_eq_four (hash_lt _), hempty, headAddr, if_neg (not_not.mpr rfl)]

/-- The first call of `Set` makes the item. -/
theorem single_of_init (hnext : traced.next traced.init call = some s') :
    Single s' (newItem call.key call.value call.expiresIn call.now) := by
  obtain ⟨hwrite, hsize⟩ := writeTraced_of_next hnext
  have hlen := length_newItem_lt call.key call.value call.expiresIn call.now
  have hcap : (newItem call.key call.value call.expiresIn call.now).capcity ≤
      (newItem call.key call.value call.expiresIn call.now).length + 16 := capcity_newItem_le
  have hlink : (newItem call.key call.value call.expiresIn call.now).next = 0 := rfl
  generalize newItem call.key call.value call.expiresIn call.now = item at hwrite hlen hcap hlink
  rw [show traced.init.file = fresh from rfl, writeTraced_of_bucket layout_fresh rfl] at hwrite
  obtain ⟨hfile, hlog⟩ := Prod.mk.inj (Option.some.inj hwrite)
  have hlog : s'.log = [⟨8 * buckets, item⟩] := hlog.symm
  rw [← hfile] at hsize
  have hle := (length_le_size_writeItem _ _ _).trans_lt hsize
  have hlayout := layout_fresh.append_first rfl hlink (by omega) rfl hsize
  refine ⟨hfile ▸ hlayout, hlen, ?_, by simp [hlog], ?_⟩
  · -- the file ends where the item does
    have hheld := (hlayout.held (fresh.size, item) (by simp)).le_size
    have hhash := hash_lt item.key
    rw [length_encode] at hheld
    have hwritten : (writeItem (fresh.write (8 * hash item.key) (leBytes 4 fresh.size)) fresh.size
        item).size = 8 * buckets + item.length := by
      rw [writeItem, ByteStore.size_write (encode_ne_nil item), length_encode,
        size_write_of_le (by rw [length_leBytes]; change _ ≤ 8 * buckets; omega)]
      change max (8 * buckets) (8 * buckets + item.length) = _
      omega
    rw [← hfile, hwritten]
    omega
  · rw [hlog]
    intro w hw
    obtain rfl := List.mem_singleton.mp hw
    exact ⟨rfl, rfl, hlen.le⟩

/-- In the bucket of the only item, `Write` stops at it or goes on behind it. -/
theorem writeTraced_of_single (hs : Single s xr) (hhash : hash xr.key = hash item.key)
    (now : Int64) :
    writeTraced s.file item now s.log =
      if stopsAt item now xr then
        if item.capcity ≤ xr.capcity then
          some (writeItem s.file (8 * buckets) (xr.fill item),
            s.log ++ [⟨8 * buckets, xr.fill item⟩])
        else
          some (writeItem s.file 0 { xr with key := [], value := [], expiresIn := 0 },
            s.log ++ [⟨0, { xr with key := [], value := [], expiresIn := 0 }⟩])
      else
        some (writeItem (s.file.write (8 * buckets + 8) (leBytes 8 s.file.size)) s.file.size item,
          s.log ++ [⟨s.file.size, item⟩]) := by
  have hbucket : bucket (hash item.key) [(8 * buckets, xr)] = [(8 * buckets, xr)] := by
    simp [bucket, hhash]
  have hread : readItem s.file (8 * buckets) = some xr :=
    hs.layout.readItem_eq (p := (8 * buckets, xr)) List.mem_cons_self
  have hnext : xr.next = 0 := hs.layout.linked.1
  have hpos : 0 < 8 * buckets := by decide
  obtain ⟨n, hn⟩ : ∃ n, fuel s.file = n + 2 := by
    have := hs.layout.heads_le
    exact ⟨s.file.size - 1, by rw [fuel]; omega⟩
  -- At the end of a chain there is nothing to go on to.
  have hzero : ∀ f log, writeLoopTraced item now s.file.size (n + 1) f 0 log = some (f, log) :=
    fun f log => by rw [writeLoopTraced, if_pos rfl]
  rw [writeTraced, hs.layout.head_eq_four (hash_lt _), hbucket, headAddr, if_pos hpos.ne', hn,
    writeLoopTraced, if_neg hpos.ne', hread]
  simp only [Option.bind_eq_bind, Option.bind_some, hnext, hzero, if_true, stopsAt]
  -- `Write` stops at the same key, or at an expired item with enough room.
  by_cases hkey : xr.key = item.key
  · by_cases hroom : item.capcity ≤ xr.capcity
    · simp [hkey, hroom]
    · simp [hkey, hroom, Nat.lt_of_not_le hroom]
  · by_cases hroom : item.capcity ≤ xr.capcity
    · simp [hkey, hroom]
    · simp [hkey, hroom]

/-- An item that goes into the slot stays within what it claims. -/
theorem Single.fill (hs : Single s xr) (hhash : hash xr.key = hash item.key)
    (hlen : item.length < xr.capcity)
    (hsize : (writeItem s.file (8 * buckets) (xr.fill item)).size < 2 ^ 32) :
    Single ⟨writeItem s.file (8 * buckets) (xr.fill item),
      s.log ++ [⟨8 * buckets, xr.fill item⟩]⟩ (xr.fill item) where
  layout := by
    have hlayout : Layout s.file ([] ++ (8 * buckets, xr) :: []) := hs.layout
    exact hlayout.fill hhash.symm rfl rfl nofun hsize
  length_lt := hlen
  size_lt := by
    have hlt := hs.size_lt
    rw [writeItem, ByteStore.size_write (encode_ne_nil _), length_encode]
    exact max_lt hlt (Nat.add_lt_add_left hlen _)
  logged := by simp
  log w hw := by
    rcases List.mem_append.mp hw with hw | hw
    · exact hs.log w hw
    · obtain rfl := List.mem_singleton.mp hw
      exact ⟨rfl, rfl, hlen.le⟩

/-- A further call of `Set` puts the item into the slot, or breaks the layout. -/
theorem next_of_single (hs : Single s xr) (hnext : traced.next s call = some s') :
    KeepsRegions s call ∧ (∃ xr', Single s' xr') ∨
      ¬ KeepsRegions s call ∧ ∃ w, s'.log = s.log ++ [w] ∧ (w.addr = s.file.size ∨ w.addr = 0) := by
  obtain ⟨hwrite, hsize⟩ := writeTraced_of_next hnext
  have hlen := length_newItem_lt call.key call.value call.expiresIn call.now
  have hkeeps : KeepsRegions s call ↔ s.file.size = 8 * buckets ∨
    (stopped s.file (newItem call.key call.value call.expiresIn call.now) call.later).head?.any
      (fun p => (newItem call.key call.value call.expiresIn call.now).capcity ≤ p.2.capcity) =
        true := Iff.rfl
  generalize newItem call.key call.value call.expiresIn call.now = item at hwrite hlen hkeeps
  have hnonempty : s.file.size ≠ 8 * buckets :=
    (hs.layout.addr_lt (p := (8 * buckets, xr)) List.mem_cons_self).ne'
  rw [or_iff_right hnonempty, stopped, hs.layout.items_eq (hash_lt _)] at hkeeps
  by_cases hhash : hash xr.key = hash item.key
  · have hbucket : bucket (hash item.key) [(8 * buckets, xr)] = [(8 * buckets, xr)] := by
      simp [bucket, hhash]
    rw [hbucket] at hkeeps
    rw [writeTraced_of_single hs hhash] at hwrite
    -- The item goes into the slot, its tombstone is written at the address zero, or the item comes
    -- behind the slot.
    split_ifs at hwrite with hstop hroom
    · obtain ⟨hfile, hlog⟩ := Prod.mk.inj (Option.some.inj hwrite)
      rw [← hfile] at hsize
      have hfill := hs.fill hhash (by omega) hsize
      rw [hfile, hlog] at hfill
      exact .inl ⟨hkeeps.mpr (by simp [hstop, hroom]), xr.fill item, hfill⟩
    · obtain ⟨-, hlog⟩ := Prod.mk.inj (Option.some.inj hwrite)
      exact .inr ⟨by simp [hkeeps, hstop, hroom], _, hlog.symm, .inr rfl⟩
    · obtain ⟨-, hlog⟩ := Prod.mk.inj (Option.some.inj hwrite)
      exact .inr ⟨by simp [hkeeps, hstop], _, hlog.symm, .inl rfl⟩
  · -- In another bucket the item is the first one, and comes behind the slot too.
    have hbucket : bucket (hash item.key) [(8 * buckets, xr)] = [] := by simp [bucket, hhash]
    rw [writeTraced_of_bucket hs.layout hbucket] at hwrite
    obtain ⟨-, hlog⟩ := Prod.mk.inj (Option.some.inj hwrite)
    rw [hbucket] at hkeeps
    exact .inr ⟨by simp [hkeeps], _, hlog.symm, .inl rfl⟩

/-- An item at the end of the file, or at the address zero, breaks the layout. -/
theorem not_wellLaid (hs : Single s xr) {w : ItemWrite} (hlog : s'.log = s.log ++ [w])
    (hw : w.addr = s.file.size ∨ w.addr = 0) : ¬ WellLaid s' := by
  intro hlaid
  have hmem : w ∈ s'.log := by simp [hlog]
  have hbehind := hlaid.behind w hmem
  have hstart := hs.layout.addr_lt (p := (8 * buckets, xr)) List.mem_cons_self
  have hpos : 0 < 8 * buckets := by decide
  rcases hw with hw | hw
  · obtain ⟨w₀, hw₀⟩ := List.exists_mem_of_ne_nil _ hs.logged
    obtain ⟨haddr, hcap, -⟩ := hs.log w₀ hw₀
    have := hs.size_lt
    have hlen := (hlaid.fits w hmem).1
    rw [Item.length] at hlen
    have := hlaid.apart w₀ (by simp [hlog, hw₀]) w hmem (by omega)
    omega
  · omega

/-! ## Runs -/

/-- The file is new, or has one item. -/
theorem single_of_reachable (h : (traced.restrict KeepsRegions).Reachable s) :
    s = traced.init ∨ ∃ xr, Single s xr := by
  refine TransitionSystem.Reachable.invariant_restrict
    (P := fun s => s = traced.init ∨ ∃ xr, Single s xr) (.inl rfl) ?_ h
  rintro s call s' (rfl | ⟨xr, hs⟩) hkeeps hnext
  · exact .inr ⟨_, single_of_init hnext⟩
  · rcases next_of_single hs hnext with ⟨-, hs'⟩ | ⟨hnot, -⟩
    · exact .inr hs'
    · exact absurd hkeeps hnot

/-- The layout is kept as long as the first item's slot takes all items. The first call whose item
it does not take breaks it. -/
theorem wellLaid_iff_keepsRegions (hs : (traced.restrict KeepsRegions).Reachable s) :
    WellLaid s ∧ ∀ call s', traced.next s call = some s' → (WellLaid s' ↔ KeepsRegions s call) := by
  rcases single_of_reachable hs with rfl | ⟨xr, hs⟩
  · -- The first item.
    refine ⟨wellLaid_init, fun call s' hnext => ?_⟩
    exact iff_of_true (single_of_init hnext).wellLaid (.inl rfl)
  · -- A further one goes into the slot of the first, or breaks the layout.
    refine ⟨hs.wellLaid, fun call s' hnext => ?_⟩
    rcases next_of_single hs hnext with ⟨hkeeps, xr', hs'⟩ | ⟨hnot, w, hlog, hw⟩
    · exact iff_of_true hs'.wellLaid hkeeps
    · exact iff_of_false (not_wellLaid hs hlog hw) hnot

/-- Two values of one key. -/
theorem wellLaid_one_key : ∃ s, s.log.length = 2 ∧ WellLaid s := by
  have hexec : ((traced.restrict KeepsRegions).exec traced.init
      [⟨bytes "a", bytes "1", 5, 10, 10⟩, ⟨bytes "a", bytes "2", 5, 11, 11⟩]).map
        (fun s => s.log.length) = some 2 := by decide +kernel
  obtain ⟨s, hs, hlog⟩ := Option.map_eq_some_iff.mp hexec
  exact ⟨s, hlog, (wellLaid_iff_keepsRegions (TransitionSystem.reachable_of_exec hs)).1⟩

/-- The item of a second key starts within what the first one claims. -/
theorem not_wellLaid_two_keys : ¬ ∀ s, traced.Reachable s → WellLaid s := by
  intro hlaid
  have hexec : (traced.exec traced.init
      [⟨bytes "a", bytes "1", 5, 10, 10⟩, ⟨bytes "b", bytes "2", 5, 11, 11⟩]).map
        (fun s => s.log.map fun w => (w.addr, w.item.capcity)) =
          some [(8 * buckets, 48), (8 * buckets + 42, 48)] := by decide +kernel
  obtain ⟨s, hs, hlog⟩ := Option.map_eq_some_iff.mp hexec
  obtain ⟨w, rest, hw, hwlog, hrest⟩ := List.map_eq_cons_iff.mp hlog
  obtain ⟨w', rest', hw', hwlog', -⟩ := List.map_eq_cons_iff.mp hrest
  obtain ⟨haddr, hcap⟩ := Prod.mk.inj hwlog
  obtain ⟨haddr', hcap'⟩ := Prod.mk.inj hwlog'
  have hapart := (hlaid s (TransitionSystem.reachable_of_exec hs)).apart w (by simp [hw]) w'
    (by simp [hw, hw']) (by omega)
  omega

end NativeFile

end MosqCluster
