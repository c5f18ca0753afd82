import MosqCluster.Foundation.TransitionSystem
import MosqCluster.Foundation.TtlMap
import MosqCluster.Helper.XString

/-!
# The cache in memory

`NativeMemory` of `helper/cache/native_memory.cpp`, a `std::map` of values with a time from which on
they have expired, or a negative number. An update of a value adds the lifetime to the time of the
call; the constructor of a value, which the first call of `Set` for a key runs, stores the lifetime
as it is.

A value is still there in the second in which it expires, so that its deadline is the next one.

## Main definitions

* `NativeMemory.set` and `NativeMemory.get`;
* `NativeMemory.system`: sequences of calls of `Set` and `Get`;
* `NativeMemory.IsTtlMap`: `Get` gives what a map with deadlines gives;
* `NativeMemory.KeepsTime`: the calls that store the right time.

## Main results

* `NativeMemory.agrees_next_iff`: which calls lead to a right state;
* `NativeMemory.isTtlMap_iff_keepsTime`: sequences of such calls.
-/

namespace MosqCluster

namespace NativeMemory

/-- `NativeMemory::Value`. -/
structure Value where
  value_ : Bytes
  expires_in_ : Int64

/-- `Value::IsExpired`. -/
def Value.isExpired (v : Value) (now : Int64) : Bool := 0 ≤ v.expires_in_ && v.expires_in_ < now

/-- `Value::Set` at the time `now`. `none` is an overflow of the sum of two times. -/
def Value.set (v : Value) (value : Bytes) (expires_in now : Int64) : Option Value :=
  if 0 ≤ expires_in ∧ 2 ^ 63 ≤ now.toInt + expires_in.toInt then none
  else
    some { v with
      value_ := value
      expires_in_ := if 0 ≤ expires_in then now + expires_in else -1 }

end NativeMemory

/-- `NativeMemory`. -/
structure NativeMemory where
  values_ : Bytes → Option NativeMemory.Value

namespace NativeMemory

/-- `NativeMemory::Set` at the time `now`. -/
def set (m : NativeMemory) (key value : Bytes) (expires_in now : Int64) : Option NativeMemory :=
  match m.values_ key with
  | some p =>
    (p.set value expires_in now).map fun p => ⟨Function.update m.values_ key (some p)⟩
  | none => some ⟨Function.update m.values_ key (some ⟨value, expires_in⟩)⟩

/-- `NativeMemory::Get` at the time `now`: what it returns, what it leaves in `expires_in`, and the
cache after it. -/
def get (m : NativeMemory) (key : Bytes) (expires_in : Int64) (cleanup : Bool) (now : Int64) :
    Bytes × Int64 × NativeMemory :=
  match m.values_ key with
  | some p =>
    if !p.isExpired now then (p.value_, p.expires_in_, m)
    else
      ([], expires_in, if cleanup then ⟨Function.update m.values_ key none⟩ else m)
  | none => ([], expires_in, m)

/-! ## Sequences of calls -/

/-- A call, with the time at which it reads the clock. -/
inductive Call where
  | set (key value : Bytes) (expires_in now : Int64)
  | get (key : Bytes) (expires_in : Int64) (cleanup : Bool) (now : Int64)

/-- The time of a call. -/
def Call.now : Call → Int64
  | .set _ _ _ now => now
  | .get _ _ _ now => now

/-- A cache, with the time of the last call and the entries that have been set. -/
structure Timed where
  memory : NativeMemory
  clock : Int64
  entries : TtlMap Bytes Bytes

/-- Calls on a new cache, while the clock does not go back. -/
def system : TransitionSystem Timed Call where
  init := ⟨⟨fun _ => none⟩, 0, .empty⟩
  next c call :=
    if c.clock ≤ call.now then
      match call with
      | .set key value expires_in now =>
        (c.memory.set key value expires_in now).map fun memory =>
          ⟨memory, now, c.entries.set key value (now.toInt + 1) expires_in.toInt⟩
      | .get key expires_in cleanup now =>
        some ⟨(c.memory.get key expires_in cleanup now).2.2, now, c.entries⟩
    else none

/-- From now on, `Get` returns the value of the entry, or an empty string. -/
def Timed.Agrees (c : Timed) : Prop :=
  ∀ key expires_in cleanup now, c.clock ≤ now →
    (c.memory.get key expires_in cleanup now).1 = (c.entries.get key now.toInt).getD []

/-- Whatever is reached by calls that meet `ok`, from then on `Get` returns what it should, and a
further call of that kind comes back. -/
def IsTtlMap (ok : Timed → Call → Prop) [∀ c call, Decidable (ok c call)] : Prop :=
  ∀ c, (system.restrict ok).Reachable c → c.Agrees ∧
    ∀ call, ok c call → c.clock ≤ call.now → (system.next c call).isSome

/-- A call of `Set` with a lifetime finds the key in the map, and its time does not overflow; or
what it stores is the same, or makes no difference. -/
def KeepsTime (c : Timed) : Call → Prop
  | .get _ _ _ _ => True
  | .set key value expires_in now =>
    expires_in < 0 ∨
      if (c.memory.values_ key).isSome then now.toInt + expires_in.toInt < 2 ^ 63
      else now = 0 ∨ value = [] ∨ expires_in = Int64.maxValue

instance (c : Timed) (call : Call) : Decidable (KeepsTime c call) := by
  cases call with
  | get => exact .isTrue trivial
  | set => exact inferInstanceAs (Decidable (_ ∨ _))

/-! ## One value -/

/-- What `Get` returns for a value of the map. -/
def shown (p : Option Value) (now : Int64) : Bytes :=
  match p with
  | some p => if p.isExpired now then [] else p.value_
  | none => []

/-- What it should return for a value that was set at a time. -/
def due (value : Bytes) (expires_in since now : Int64) : Bytes :=
  if expires_in < 0 ∨ now.toInt ≤ since.toInt + expires_in.toInt then value else []

variable {c c' : Timed} {m : NativeMemory} {key value : Bytes} {expires_in since now : Int64}

theorem get_fst (m : NativeMemory) (key : Bytes) (expires_in : Int64) (cleanup : Bool)
    (now : Int64) : (m.get key expires_in cleanup now).1 = shown (m.values_ key) now := by
  simp only [get, shown]
  cases m.values_ key with
  | none => rfl
  | some p => cases hexp : p.isExpired now <;> simp [hexp]

theorem shown_some (value : Bytes) (expires_in now : Int64) :
    shown (some ⟨value, expires_in⟩) now =
      if 0 ≤ expires_in ∧ expires_in < now then [] else value := by
  simp [shown, Value.isExpired]

/-- A value that does not expire. -/
theorem shown_of_neg {stored : Int64} (hstored : stored < 0) (hneg : expires_in < 0) :
    shown (some ⟨value, stored⟩) now = due value expires_in since now := by
  rw [shown_some, due, if_neg fun h => Int64.not_lt.mpr h.1 hstored, if_pos (.inl hneg)]

/-- A value with the right time. -/
theorem shown_of_sum (hsince : 0 ≤ since) (hlife : 0 ≤ expires_in)
    (hsum : since.toInt + expires_in.toInt < 2 ^ 63) :
    shown (some ⟨value, since + expires_in⟩) now = due value expires_in since now := by
  rw [Int64.le_iff_toInt_le, Int64.toInt_zero] at hsince hlife
  have hstored : (since + expires_in).toInt = since.toInt + expires_in.toInt := by
    rw [Int64.toInt_add]
    exact Int.bmod_eq_of_le (by omega) (by omega)
  simp only [shown_some, due, Int64.le_iff_toInt_le, Int64.lt_iff_toInt_lt, hstored,
    Int64.toInt_zero]
  split_ifs <;> first | rfl | omega

/-- A value with its lifetime in the place of its time is right where that makes no difference. -/
theorem shown_lifetime_iff (hsince : 0 ≤ since) (hlife : 0 ≤ expires_in) :
    (∀ now, since ≤ now → shown (some ⟨value, expires_in⟩) now = due value expires_in since now) ↔
      since = 0 ∨ value = [] ∨ expires_in = Int64.maxValue := by
  have hmax : Int64.maxValue.toInt = 2 ^ 63 - 1 := by decide
  simp only [shown_some, due, Int64.le_iff_toInt_le, Int64.lt_iff_toInt_lt, ← Int64.toInt_inj,
    hmax, Int64.toInt_zero] at hsince hlife ⊢
  constructor
  · intro hall
    by_contra hnot
    obtain ⟨hzero, hvalue, hne⟩ : ¬ since.toInt = 0 ∧ ¬ value = [] ∧
        ¬ expires_in.toInt = 2 ^ 63 - 1 := by simpa using hnot
    have hle := Int64.toInt_le expires_in
    have hle' := Int64.toInt_le since
    -- The last second in which the value should be there, or the last one of all.
    have hlast : (Int64.ofInt (min (since.toInt + expires_in.toInt) (2 ^ 63 - 1))).toInt =
        min (since.toInt + expires_in.toInt) (2 ^ 63 - 1) :=
      Int64.toInt_ofInt_of_le (by omega) (by omega)
    have h := hall (.ofInt (min (since.toInt + expires_in.toInt) (2 ^ 63 - 1)))
      (by rw [hlast]; omega)
    rw [hlast, if_pos (by omega), if_pos (by omega)] at h
    exact hvalue h.symm
  · intro h now hnow
    have hle := Int64.toInt_le now
    rcases h with hzero | hnil | hlast
    · split_ifs <;> first | rfl | omega
    · simp [hnil]
    · rw [if_neg (by omega), if_pos (by omega)]

/-- When what the constructor stores is right. -/
theorem shown_new_iff (hsince : 0 ≤ since) :
    (∀ now, since ≤ now → shown (some ⟨value, expires_in⟩) now = due value expires_in since now) ↔
      expires_in < 0 ∨ since = 0 ∨ value = [] ∨ expires_in = Int64.maxValue := by
  by_cases hneg : expires_in < 0
  · exact iff_of_true (fun now _ => shown_of_neg hneg hneg) (.inl hneg)
  · rw [or_iff_right hneg]
    exact shown_lifetime_iff hsince (Int64.not_lt.mp hneg)

/-- When `Value::Set` comes back, and what it stores is right. -/
theorem shown_set_iff (p : Value) (hsince : 0 ≤ since) :
    (∃ p', p.set value expires_in since = some p' ∧
      ∀ now, since ≤ now → shown (some p') now = due value expires_in since now) ↔
      expires_in < 0 ∨ since.toInt + expires_in.toInt < 2 ^ 63 := by
  by_cases hneg : expires_in < 0
  · refine iff_of_true ⟨⟨value, -1⟩, ?_, fun now _ => ?_⟩ (.inl hneg)
    · rw [Value.set, if_neg fun h => Int64.not_lt.mpr h.1 hneg, if_neg (Int64.not_le.mpr hneg)]
    · exact shown_of_neg (by decide) hneg
  · have hlife : 0 ≤ expires_in := Int64.not_lt.mp hneg
    rw [or_iff_right hneg]
    by_cases hsum : since.toInt + expires_in.toInt < 2 ^ 63
    · refine iff_of_true ⟨⟨value, since + expires_in⟩, ?_, fun now _ => ?_⟩ hsum
      · rw [Value.set, if_neg (by omega), if_pos hlife]
      · exact shown_of_sum hsince hlife hsum
    · -- the sum overflows
      refine iff_of_false ?_ hsum
      rintro ⟨p', hp', -⟩
      rw [Value.set, if_pos ⟨hlife, by omega⟩] at hp'
      cases hp'

/-! ## One call -/

theorem agrees_iff : c.Agrees ↔ ∀ key now, c.clock ≤ now →
    shown (c.memory.values_ key) now = (c.entries.get key now.toInt).getD [] := by
  constructor
  · intro h key now hnow
    rw [← h key 0 false now hnow, get_fst]
  · intro h key expires_in cleanup now hnow
    rw [get_fst, h key now hnow]

theorem agrees_mk_iff {values_ : Bytes → Option Value} {entries : TtlMap Bytes Bytes} :
    Timed.Agrees ⟨⟨values_⟩, since, entries⟩ ↔ ∀ key now, since ≤ now →
      shown (values_ key) now = (entries.get key now.toInt).getD [] := agrees_iff

/-- What the map of the entries gives for the last one. -/
theorem getD_get_set (entries : TtlMap Bytes Bytes) :
    ((entries.set key value (since.toInt + 1) expires_in.toInt).get key now.toInt).getD [] =
      due value expires_in since now := by
  simp only [due, Int64.lt_iff_toInt_lt, Int64.toInt_zero]
  by_cases hlife : 0 ≤ expires_in.toInt
  · rw [TtlMap.get_set_self hlife]
    split_ifs <;> first | rfl | omega
  · rw [TtlMap.get_set_self_of_neg (by omega), if_pos (.inl (by omega))]
    rfl

/-- A new value for a key leads to a right state where it is the right value. -/
theorem agrees_update_iff (hc : c.Agrees) (hsince : c.clock ≤ since) (p : Value) :
    Timed.Agrees ⟨⟨Function.update c.memory.values_ key (some p)⟩, since,
        c.entries.set key value (since.toInt + 1) expires_in.toInt⟩ ↔
      ∀ now, since ≤ now → shown (some p) now = due value expires_in since now := by
  rw [agrees_iff] at hc
  rw [agrees_mk_iff]
  constructor
  · intro h now hnow
    have hkey := h key now hnow
    rwa [Function.update_self, getD_get_set] at hkey
  · intro h other now hnow
    by_cases hother : other = key
    · subst hother
      rw [Function.update_self, getD_get_set]
      exact h now hnow
    · rw [Function.update_of_ne hother, TtlMap.get_set_of_ne hother]
      exact hc other now (Int64.le_trans hsince hnow)

/-- A call of `Get` leaves the map as it is, or erases a value that has expired. -/
theorem get_values (m : NativeMemory) (key : Bytes) (expires_in : Int64) (cleanup : Bool)
    (now : Int64) : (m.get key expires_in cleanup now).2.2 = m ∨
      shown (m.values_ key) now = [] ∧
        (m.get key expires_in cleanup now).2.2 = ⟨Function.update m.values_ key none⟩ := by
  simp only [get, shown]
  cases m.values_ key with
  | none => exact .inl rfl
  | some p => cases hexp : p.isExpired now <;> cases cleanup <;> simp [hexp]

/-- A call of `Get` leads from a right state to a right state. -/
theorem agrees_get (hc : c.Agrees) (hsince : c.clock ≤ since) (key : Bytes) (expires_in : Int64)
    (cleanup : Bool) :
    Timed.Agrees ⟨(c.memory.get key expires_in cleanup since).2.2, since, c.entries⟩ := by
  rw [agrees_iff] at hc
  have hlater : ∀ other now, since ≤ now →
      shown (c.memory.values_ other) now = (c.entries.get other now.toInt).getD [] :=
    fun other now hnow => hc other now (Int64.le_trans hsince hnow)
  rcases get_values c.memory key expires_in cleanup since with hsame | ⟨hgone, herased⟩
  · rw [hsame]
    exact agrees_mk_iff.mpr hlater
  · rw [herased, agrees_mk_iff]
    intro other now hnow
    by_cases hother : other = key
    · -- What is not there now is not there later on either.
      subst hother
      rw [hc other since hsince] at hgone
      rw [Function.update_self]
      cases hget : c.entries.get other now.toInt with
      | none => rfl
      | some value =>
        rw [TtlMap.get_of_le (Int64.le_iff_toInt_le.mp hnow) hget] at hgone
        exact hgone.symm
    · rw [Function.update_of_ne hother]
      exact hlater other now hnow

/-- The calls that lead from a right state to a right state. -/
theorem agrees_next_iff (hclock : 0 ≤ c.clock) (hc : c.Agrees) {call : Call}
    (hnow : c.clock ≤ call.now) :
    (∃ c', system.next c call = some c' ∧ c'.Agrees) ↔ KeepsTime c call := by
  cases call with
  | get key expires_in cleanup now =>
    refine iff_of_true ⟨_, if_pos hnow, ?_⟩ trivial
    exact agrees_get hc hnow key expires_in cleanup
  | set key value expires_in now =>
    have hsince : c.clock ≤ now := hnow
    have hnow0 : 0 ≤ now := Int64.le_trans hclock hsince
    have hnext : system.next c (.set key value expires_in now) =
        (c.memory.set key value expires_in now).map fun memory =>
          ⟨memory, now, c.entries.set key value (now.toInt + 1) expires_in.toInt⟩ := if_pos hnow
    rw [hnext, set, KeepsTime]
    cases hp : c.memory.values_ key with
    | none =>
      simp only [Option.map_some, Option.some.injEq, exists_eq_left', Option.isSome_none,
        Bool.false_eq_true, if_false]
      rw [agrees_update_iff hc hsince]
      exact shown_new_iff hnow0
    | some p =>
      simp only [Option.isSome_some, if_true, Option.map_map, Option.map_eq_some_iff]
      rw [← shown_set_iff p hnow0]
      constructor
      · rintro ⟨_, ⟨p', hset, rfl⟩, hagrees⟩
        exact ⟨p', hset, (agrees_update_iff hc hsince p').mp hagrees⟩
      · rintro ⟨p', hset, hright⟩
        exact ⟨_, ⟨p', hset, rfl⟩, (agrees_update_iff hc hsince p').mpr hright⟩

/-! ## Sequences of calls that keep the time -/

/-- A call reads the clock, and the clock does not go back. -/
theorem clock_of_next {call : Call} (h : system.next c call = some c') :
    c.clock ≤ call.now ∧ c'.clock = call.now := by
  obtain ⟨hnow, h⟩ := Option.ite_none_right_eq_some.mp h
  refine ⟨hnow, ?_⟩
  cases call with
  | get =>
    obtain rfl := Option.some.inj h
    rfl
  | set =>
    obtain ⟨memory, -, rfl⟩ := Option.map_eq_some_iff.mp h
    rfl

variable {ok : Timed → Call → Prop} [∀ c call, Decidable (ok c call)]

/-- The clock begins with 0 and does not go back. -/
theorem clock_of_reachable (h : (system.restrict ok).Reachable c) : 0 ≤ c.clock := by
  refine TransitionSystem.Reachable.invariant_restrict (P := fun c => 0 ≤ c.clock)
    (by decide) (fun c call c' hclock _ hnext => ?_) h
  obtain ⟨hnow, hafter⟩ := clock_of_next hnext
  rw [hafter]
  exact Int64.le_trans hclock hnow

/-- The states that are reached by calls that keep the time are right. -/
theorem agrees_of_reachable
    (hkeeps : ∀ c, (system.restrict ok).Reachable c →
      ∀ call, c.clock ≤ call.now → ok c call → KeepsTime c call)
    (h : (system.restrict ok).Reachable c) : c.Agrees := by
  have hinit : system.init.Agrees := fun _ _ _ _ _ => rfl
  refine (TransitionSystem.Reachable.invariant (T := system.restrict ok)
    (P := fun c => (system.restrict ok).Reachable c ∧ c.Agrees) ⟨.refl, hinit⟩
    (fun c call c' hc hstep => ?_) h).2
  obtain ⟨hreach, hagrees⟩ := hc
  obtain ⟨hok, hnext⟩ := TransitionSystem.restrict_next.mp hstep
  obtain ⟨hnow, -⟩ := clock_of_next hnext
  refine ⟨hreach.step call hstep, ?_⟩
  -- There is one state to which the call leads.
  obtain ⟨c'', hnext', hagrees'⟩ := (agrees_next_iff (clock_of_reachable hreach) hagrees hnow).mpr
    (hkeeps c hreach call hnow hok)
  rwa [Option.some.inj (hnext.symm.trans hnext')]

/-- Whatever calls are allowed: the cache is a map with deadlines in all their sequences if and only
if every call in these keeps the time. -/
theorem isTtlMap_iff_keepsTime :
    IsTtlMap ok ↔ ∀ c, (system.restrict ok).Reachable c →
      ∀ call, c.clock ≤ call.now → ok c call → KeepsTime c call := by
  constructor
  · intro h c hreach call hnow hok
    obtain ⟨hagrees, hreturns⟩ := h c hreach
    obtain ⟨c', hnext⟩ := Option.isSome_iff_exists.mp (hreturns call hok hnow)
    -- the state behind the call is reached as well
    have hreach' := hreach.step call (TransitionSystem.restrict_next.mpr ⟨hok, hnext⟩)
    apply (agrees_next_iff (clock_of_reachable hreach) hagrees hnow).mp
    exact ⟨c', hnext, (h c' hreach').1⟩
  · intro hkeeps c hreach
    have hagrees := agrees_of_reachable hkeeps hreach
    refine ⟨hagrees, fun call hok hnow => ?_⟩
    obtain ⟨c', hnext, -⟩ := (agrees_next_iff (clock_of_reachable hreach) hagrees hnow).mpr
      (hkeeps c hreach call hnow hok)
    rw [hnext]
    rfl

/-- The first value of a key is stored with its lifetime in the place of its time. -/
theorem not_isTtlMap_memory : ¬ IsTtlMap fun _ _ => True := by
  intro h
  let c : Timed := ⟨⟨Function.update (fun _ => none) (bytes "k") (some ⟨bytes "v", 5⟩)⟩, 10,
    TtlMap.empty.set (bytes "k") (bytes "v") 11 5⟩
  have hnext : (system.restrict fun _ _ => True).next system.init
      (.set (bytes "k") (bytes "v") 5 10) = some c :=
    TransitionSystem.restrict_next.mpr ⟨trivial, rfl⟩
  have hreach : (system.restrict fun _ _ => True).Reachable c :=
    TransitionSystem.Run.step _ .refl hnext
  have hvalue := (h c hreach).1 (bytes "k") 0 false 12 (by decide)
  exact absurd hvalue (by decide)

end NativeMemory

end MosqCluster
