import MosqCluster.Foundation.TransitionSystem
import Mathlib.Data.List.Flatten
import Mathlib.Data.List.Induction
import Mathlib.Data.List.Pairwise
import Mathlib.Data.List.Nodup
import Mathlib.Logic.Function.Basic
import Mathlib.Tactic.Ring

/-!
# The connection pool

`SimplePool` of `helper/simple_pool.h`, as `ConnectionPool` of `xauth/db/connection_pool.cpp` uses
it. Every object is created by the allocator, and every `RefObject` holds the address of one in its
field `object_`. `GetObject` hands out the object of the first wrapper in the list; `ReleaseObject`
takes `object_` for the place where the object itself is, and looks for the wrapper in front of the
object.

Addresses are integers, and memory is a word at every address. The addresses of new blocks are
chosen by the environment, apart from those that are allocated; callers may write anywhere but into
a wrapper. A step whose effect is undefined leaves a `Fault`, after which there are no more steps.
`Get` returns a reference into the list node that it has removed; the word is still there, since
nothing else is allocated before it is read.

## Main definitions

* `SimplePool`, its operations, and the system `simplePool`;
* `SimplePool.Accounted` and `SimplePool.RoundTrips`: the counters, and what the addresses are.

## Main results

* `SimplePool.accounted_iff`: the counters are right as long as no step goes wrong, which
  `KeepsAccounts` says of a step beforehand;
* `SimplePool.roundTrips_iff_onlyGets`: the addresses are right as long as nothing is released.
-/

namespace MosqCluster

/-- `offsetof(RefObject, object_)`. -/
def objectOffset : Int := 8

/-- `sizeof(RefObject)`. -/
def refObjectSize : Int := 24

/-- A `RefObject` that `Create` has made: its address, and that of the object from the allocator. -/
structure RefObject where
  wrapper : Int
  object : Int
  deriving DecidableEq, Repr

/-- The arguments of the constructor, which are `int`s, and the size of an object. -/
structure PoolConfig where
  initSize : Int
  incSize : Int
  maxSize : Int
  objectSize : Int
  one_le_incSize : 1 ≤ incSize
  initSize_lt : initSize < 2 ^ 31
  maxSize_lt : maxSize < 2 ^ 31
  objectSize_pos : 0 < objectSize

/-! ## Blocks -/

/-- Two blocks, with their sizes, have no byte in common. -/
def Apart (a b : Int × Int) : Prop := a.1 + a.2 ≤ b.1 ∨ b.1 + b.2 ≤ a.1

instance (a b : Int × Int) : Decidable (Apart a b) := inferInstanceAs (Decidable (_ ∨ _))

/-- The blocks of wrappers and of their objects. -/
def blocks (c : PoolConfig) (refs : List RefObject) : List (Int × Int) :=
  refs.flatMap fun r => [(r.wrapper, refObjectSize), (r.object, c.objectSize)]

/-- They are allocated at the same time. -/
def Allocated (c : PoolConfig) (refs : List RefObject) : Prop := (blocks c refs).Pairwise Apart

instance (c : PoolConfig) (refs : List RefObject) : Decidable (Allocated c refs) :=
  inferInstanceAs (Decidable (List.Pairwise _ _))

/-! ## The pool -/

/-- What makes the effect of a step undefined. -/
inductive Fault
  /-- `front` of an empty list. -/
  | frontOfEmpty
  /-- `back` of an empty list. -/
  | backOfEmpty
  /-- `delete` of what was not allocated. -/
  | badPointer
  /-- A counter above `INT_MAX`. -/
  | overflow
  deriving DecidableEq, Repr

/-- `SimplePool`, the memory, and the callers. -/
structure SimplePool where
  /-- `current_size_`. -/
  currentSize : Int
  /-- `idle_size_`. -/
  idleSize : Int
  /-- `list_`. -/
  list : List Int
  /-- The word at an address. -/
  mem : Int → Int
  /-- The wrappers that are allocated, with their objects. -/
  live : List RefObject := []
  /-- The objects that callers hold. -/
  held : List Int := []
  fault : Option Fault := none
  /-- History: what `Create` has made. -/
  made : List RefObject := []
  /-- History: what `GetObject` has returned. -/
  returned : List Int := []
  /-- History: the wrappers that `ReleaseObject` has computed, with the objects released. -/
  recovered : List RefObject := []

/-- Steps: a call, with the addresses of what is allocated in it, and a write of a caller. -/
inductive PoolLabel
  | getObject (refs : List RefObject)
  | releaseObject (obj : Int) (cleanup : Bool)
  | tidy
  | write (a v : Int)

namespace SimplePool

/-- `RefObject::pointer`. -/
def pointer (s : SimplePool) (wrapper : Int) : Int := s.mem (wrapper + objectOffset)

/-- One round of `Create`. -/
def createOne (s : SimplePool) (r : RefObject) : SimplePool :=
  { s with
    list := s.list ++ [r.wrapper]
    idleSize := s.idleSize + 1
    currentSize := s.currentSize + 1
    mem := Function.update s.mem (r.wrapper + objectOffset) r.object
    live := s.live ++ [r]
    made := s.made ++ [r] }

/-- `Create`. -/
def create (s : SimplePool) (refs : List RefObject) : SimplePool := refs.foldl createOne s

/-- How many objects `Get` creates where none is idle. -/
def growth (c : PoolConfig) (s : SimplePool) : Int :=
  if c.maxSize < 0 then c.incSize
  else if s.currentSize < c.maxSize then c.maxSize - s.currentSize
  else 0

/-- The second half of `Get`, and the rest of `GetObject`. -/
def takeFront (s : SimplePool) : SimplePool :=
  match s.list with
  | [] => { s with fault := some .frontOfEmpty }
  | wrapper :: list =>
    { s with
      list := list
      idleSize := s.idleSize - 1
      held := s.pointer wrapper :: s.held
      returned := s.returned ++ [s.pointer wrapper] }

/-- `GetObject`. -/
def getObject (c : PoolConfig) (s : SimplePool) (refs : List RefObject) : Option SimplePool :=
  if s.idleSize = 0 ∧ 0 < s.growth c then
    if 2 ^ 31 ≤ s.currentSize + s.growth c then some { s with fault := some .overflow }
    else if refs.length = s.growth c ∧ Allocated c (s.live ++ refs) then
      some (s.create refs).takeFront
    else none
  else if refs = [] then some s.takeFront
  else none

/-- `Destroy` of an object and `delete` of its wrapper. -/
def free (s : SimplePool) (r : RefObject) : SimplePool :=
  if r ∈ s.live then { s with live := s.live.erase r } else { s with fault := some .badPointer }

/-- `ReleaseObject`. -/
def releaseObject (c : PoolConfig) (s : SimplePool) (obj : Int) (cleanup : Bool) : SimplePool :=
  let r : RefObject := ⟨obj - objectOffset, obj⟩
  let s := { s with held := s.held.erase obj, recovered := s.recovered ++ [r] }
  if cleanup ∧ c.initSize < s.idleSize then { s with currentSize := s.currentSize - 1 }.free r
  else { s with list := s.list ++ [r.wrapper], idleSize := s.idleSize + 1 }

/-- Rounds of the loop of `Tidy`. -/
def tidyLoop : Nat → SimplePool → SimplePool
  | 0, s => s
  | n + 1, s =>
    match s.list.getLast? with
    | none => { s with fault := some .backOfEmpty }
    | some wrapper =>
      let s := { s with
        idleSize := s.idleSize - 1
        currentSize := s.currentSize - 1
        list := s.list.dropLast }.free ⟨wrapper, s.pointer wrapper⟩
      if s.fault.isSome then s else tidyLoop n s

/-- `Tidy`. -/
def tidy (c : PoolConfig) (s : SimplePool) : SimplePool :=
  tidyLoop (s.idleSize - c.initSize).toNat s

/-- One step. A caller releases what it holds, and does not write into a wrapper. -/
def next (c : PoolConfig) (s : SimplePool) (l : PoolLabel) : Option SimplePool :=
  if s.fault.isSome then none
  else
    match l with
    | .getObject refs => s.getObject c refs
    | .releaseObject obj cleanup =>
      if obj ∈ s.held then some (s.releaseObject c obj cleanup) else none
    | .tidy => some (s.tidy c)
    | .write a v =>
      if ∀ r ∈ s.live, a ≠ r.wrapper + objectOffset then
        some { s with mem := Function.update s.mem a v }
      else none

end SimplePool

/-- What the constructor finds: the contents of the memory, and the addresses of what it creates. -/
structure PoolStart (c : PoolConfig) where
  mem : Int → Int
  refs : List RefObject
  length_eq : (refs.length : Int) =
    if 0 < c.initSize ∧ (c.maxSize < 0 ∨ c.initSize < c.maxSize) then c.initSize else 0
  allocated : Allocated c refs

/-- `SimplePool::SimplePool`. -/
def SimplePool.new {c : PoolConfig} (start : PoolStart c) : SimplePool :=
  create ⟨0, 0, [], start.mem, [], [], none, [], [], []⟩ start.refs

/-- A pool and its callers. -/
def simplePool (c : PoolConfig) (start : PoolStart c) : TransitionSystem SimplePool PoolLabel where
  init := .new start
  next := SimplePool.next c

namespace SimplePool

/-! ## Accounts -/

/-- The counters are right, no object is held twice, and nothing undefined has happened: no front
of an empty list was taken. -/
structure Accounted (c : PoolConfig) (s : SimplePool) : Prop where
  fault_eq : s.fault = none
  idleSize_eq : s.idleSize = s.list.length
  idleSize_nonneg : 0 ≤ s.idleSize
  idleSize_le : s.idleSize ≤ s.currentSize
  currentSize_le : 0 ≤ c.maxSize → s.currentSize ≤ c.maxSize
  held_nodup : s.held.Nodup

/-- The object that `GetObject` returns: of the first wrapper, or of the first that is made. -/
def frontObject (s : SimplePool) (refs : List RefObject) : Option Int :=
  match s.list with
  | wrapper :: _ => some (s.pointer wrapper)
  | [] => refs.head?.map RefObject.object

/-- A step that has a defined effect. -/
def Safe (c : PoolConfig) (s : SimplePool) : PoolLabel → Prop
  | .getObject _ =>
    s.idleSize = 0 → 0 < s.growth c ∧ s.currentSize + s.growth c < 2 ^ 31
  | .releaseObject _ cleanup => ¬ (cleanup = true ∧ c.initSize < s.idleSize)
  | .tidy =>
    0 ≤ c.initSize ∧ (s.list.drop c.initSize.toNat).Nodup ∧
      ∀ wrapper ∈ s.list.drop c.initSize.toNat, ∃ r ∈ s.live, r.wrapper = wrapper
  | .write .. => True

/-- A step that has a defined effect and does not hand out an object that is held. -/
def KeepsAccounts (c : PoolConfig) (s : SimplePool) : PoolLabel → Prop
  | .getObject refs => s.Safe c (.getObject refs) ∧ s.frontObject refs ∉ s.held.map some
  | l => s.Safe c l

instance (c : PoolConfig) (s : SimplePool) (l : PoolLabel) : Decidable (s.Safe c l) := by
  unfold Safe
  cases l
  all_goals infer_instance

instance (c : PoolConfig) (s : SimplePool) (l : PoolLabel) : Decidable (s.KeepsAccounts c l) := by
  unfold KeepsAccounts
  cases l
  all_goals infer_instance

variable {c : PoolConfig} {s s' : SimplePool} {refs refs' : List RefObject} {r r' : RefObject}
  {l : PoolLabel}

/-! ## What is allocated together -/

theorem mem_blocks_wrapper (hr : r ∈ refs) : (r.wrapper, refObjectSize) ∈ blocks c refs :=
  List.mem_flatMap.mpr ⟨r, hr, List.mem_cons_self⟩

theorem blocks_append (refs refs' : List RefObject) :
    blocks c (refs ++ refs') = blocks c refs ++ blocks c refs' := List.flatMap_append ..

/-- Two wrappers are at different addresses. -/
theorem wrapper_ne (h : Allocated c (refs ++ refs')) (hr : r ∈ refs) (hr' : r' ∈ refs') :
    r.wrapper ≠ r'.wrapper := by
  rw [Allocated, blocks_append, List.pairwise_append] at h
  have hapart := h.2.2 _ (mem_blocks_wrapper hr) _ (mem_blocks_wrapper hr')
  simp only [Apart, refObjectSize] at hapart
  omega

theorem allocated_of_sublist (h : Allocated c refs) (hsub : refs'.Sublist refs) :
    Allocated c refs' :=
  List.Pairwise.sublist (hsub.flatMap _) h

/-- The address in front of an object is not that of its wrapper. -/
theorem not_mem_of_allocated (h : Allocated c refs) (obj : Int) :
    (⟨obj - objectOffset, obj⟩ : RefObject) ∉ refs := by
  intro hmem
  have hone : Allocated c [⟨obj - objectOffset, obj⟩] :=
    allocated_of_sublist h (List.singleton_sublist.mpr hmem)
  have hpos := c.objectSize_pos
  simp only [Allocated, blocks, List.flatMap_singleton, List.pairwise_cons, List.mem_singleton,
    forall_eq, Apart, objectOffset, refObjectSize] at hone
  omega

/-! ## What one operation does -/

/-- What holds of a pool while its effects are defined. -/
structure Core (c : PoolConfig) (s : SimplePool) : Prop where
  fault_eq : s.fault = none
  idleSize_eq : s.idleSize = s.list.length
  currentSize_eq : s.currentSize = s.idleSize + s.held.length
  currentSize_le : 0 ≤ c.maxSize → s.currentSize ≤ c.maxSize
  allocated : Allocated c s.live
  pointer_eq : ∀ r ∈ s.live, s.pointer r.wrapper = r.object

/-- What `Create` does. -/
theorem create_eq (s : SimplePool) (refs : List RefObject) :
    (s.create refs).list = s.list ++ refs.map RefObject.wrapper ∧
    (s.create refs).idleSize = s.idleSize + refs.length ∧
    (s.create refs).currentSize = s.currentSize + refs.length ∧
    (s.create refs).live = s.live ++ refs ∧ (s.create refs).made = s.made ++ refs ∧
    (s.create refs).held = s.held ∧ (s.create refs).fault = s.fault ∧
    (s.create refs).returned = s.returned ∧ (s.create refs).recovered = s.recovered := by
  induction refs generalizing s with
  | nil => simp [create]
  | cons r refs ih =>
    obtain ⟨hlist, hidle, hcurrent, hlive, hmade, hheld, hfault, hreturned, hrecovered⟩ :=
      ih (s.createOne r)
    rw [create, List.foldl_cons]
    refine ⟨hlist.trans ?_, hidle.trans ?_, hcurrent.trans ?_, hlive.trans ?_, hmade.trans ?_,
      hheld, hfault, hreturned, hrecovered⟩
    · simp [createOne]
    · rw [List.length_cons, createOne]
      push_cast
      ring
    · rw [List.length_cons, createOne]
      push_cast
      ring
    · simp [createOne]
    · simp [createOne]

/-- Every wrapper holds the address of its object, the new ones too. -/
theorem pointer_create (halloc : Allocated c (s.live ++ refs))
    (hpointer : ∀ r ∈ s.live, s.pointer r.wrapper = r.object) :
    ∀ r ∈ s.live ++ refs, (s.create refs).pointer r.wrapper = r.object := by
  induction refs generalizing s with
  | nil => simpa [create] using hpointer
  | cons r refs ih =>
    have hsplit : s.live ++ r :: refs = (s.live ++ [r]) ++ refs := by simp
    rw [hsplit] at halloc ⊢
    apply ih (s := s.createOne r) halloc
    intro r' hr'
    rcases List.mem_append.mp hr' with hr' | hr'
    · have hone : Allocated c (s.live ++ [r]) :=
        allocated_of_sublist halloc (List.sublist_append_left _ _)
      have hne := wrapper_ne hone hr' List.mem_cons_self
      exact (Function.update_of_ne (fun h => hne (by omega)) _ _).trans (hpointer r' hr')
    · rw [List.mem_singleton.mp hr']
      exact Function.update_self ..

/-- A pool that grows is not larger than it may be. -/
theorem growth_le (hgrowth : 0 < s.growth c) (hmax : 0 ≤ c.maxSize) :
    s.currentSize + s.growth c ≤ c.maxSize := by
  unfold growth at *
  split_ifs at *
  · omega
  · omega
  · omega

/-- Where it has a defined effect, `GetObject` takes the first wrapper, of the list or of what is
made. -/
theorem getObject_cases (h : Core c s) (hget : s.getObject c refs = some s') :
    ¬ s.Safe c (.getObject refs) ∧ s'.fault ≠ none ∨
      s.Safe c (.getObject refs) ∧ s' = (s.create refs).takeFront ∧
        Allocated c (s.live ++ refs) ∧ (0 ≤ c.maxSize → s.currentSize + refs.length ≤ c.maxSize) ∧
        (s.list = [] ∨ refs = []) ∧
        ∃ wrapper list, s.list ++ refs.map RefObject.wrapper = wrapper :: list := by
  have hidle := h.idleSize_eq
  unfold getObject at hget
  split at hget
  · next hgrow =>
    -- There is no idle object, and the pool may grow.
    have hlist : s.list = [] := List.length_eq_zero_iff.mp (by omega)
    split at hget
    · next hover =>
      obtain rfl := Option.some.inj hget
      refine .inl ⟨fun hsafe => ?_, by simp⟩
      have := (hsafe hgrow.1).2
      omega
    · next hover =>
      split at hget
      · next hrefs =>
        obtain rfl := Option.some.inj hget
        refine .inr ⟨fun _ => ⟨hgrow.2, by omega⟩, rfl, hrefs.2, fun hmax => ?_, .inl hlist,
          ?_⟩
        · rw [hrefs.1]
          exact growth_le hgrow.2 hmax
        · -- `GetObject` asks for one object at least.
          have hpos : 0 < refs.length := by omega
          obtain ⟨r, rest, rfl⟩ := List.exists_cons_of_length_pos hpos
          rw [hlist]
          exact ⟨r.wrapper, rest.map RefObject.wrapper, rfl⟩
      · cases hget
  · next hgrow =>
    split at hget
    · next hrefs =>
      obtain rfl := Option.some.inj hget
      -- No object is created: the first one in the list is taken, if there is one.
      subst hrefs
      cases hlist : s.list with
      | nil =>
        have hzero : s.idleSize = 0 := by simp [hidle, hlist]
        refine .inl ⟨fun hsafe => hgrow ⟨hzero, (hsafe hzero).1⟩, ?_⟩
        simp [takeFront, hlist]
      | cons wrapper list =>
        have hpos : s.idleSize ≠ 0 := by
          rw [hidle, hlist, List.length_cons]
          omega
        refine .inr ⟨fun hzero => absurd hzero hpos, rfl, by simpa using h.allocated, ?_,
          .inr rfl, ?_⟩
        · simpa using h.currentSize_le
        · exact ⟨wrapper, list, by simp⟩
    · cases hget

/-- What a call of `GetObject` that has a defined effect leaves. -/
structure Gets (c : PoolConfig) (s : SimplePool) (refs : List RefObject) (s' : SimplePool) :
    Prop where
  core : Core c s'
  live_eq : s'.live = s.live ++ refs
  made_eq : s'.made = s.made ++ refs
  recovered_eq : s'.recovered = s.recovered
  takes : ∃ wrapper obj, s.list ++ refs.map RefObject.wrapper = wrapper :: s'.list ∧
    obj = s'.pointer wrapper ∧ s.frontObject refs = some obj ∧ s'.held = obj :: s.held ∧
    s'.returned = s.returned ++ [obj]

theorem gets_of_safe (h : Core c s) (hsafe : s.Safe c (.getObject refs))
    (hget : s.getObject c refs = some s') : Gets c s refs s' := by
  rcases getObject_cases h hget with ⟨hbad, -⟩ | ⟨-, rfl, halloc, hmax, hempty, wrapper, list,
    hlist⟩
  · exact absurd hsafe hbad
  obtain ⟨hclist, hcidle, hccurrent, hclive, hcmade, hcheld, hcfault, hcreturned, hcrecovered⟩ :=
    create_eq s refs
  have hpointer := pointer_create halloc h.pointer_eq
  have hlength : s.list.length + refs.length = list.length + 1 := by
    have := congrArg List.length hlist
    simpa using this
  -- What is taken is the first wrapper in the list, behind `Create`.
  have htake : (s.create refs).takeFront =
      { s.create refs with
        list := list
        idleSize := (s.create refs).idleSize - 1
        held := (s.create refs).pointer wrapper :: (s.create refs).held
        returned := (s.create refs).returned ++ [(s.create refs).pointer wrapper] } := by
    rw [takeFront, hclist, hlist]
  -- It was there before, or is that of the first new object.
  have hfront : s.frontObject refs = some ((s.create refs).pointer wrapper) := by
    rcases hempty with hempty | rfl
    · rw [hempty, List.nil_append] at hlist
      obtain ⟨r, rest, rfl, rfl, -⟩ := List.map_eq_cons_iff.mp hlist
      rw [hpointer r (by simp), frontObject, hempty]
      rfl
    · rw [List.map_nil, List.append_nil] at hlist
      rw [frontObject, hlist]
      rfl
  have hidle := h.idleSize_eq
  have hcurrent := h.currentSize_eq
  rw [htake]
  refine ⟨⟨hcfault.trans h.fault_eq, ?_, ?_, ?_, ?_, ?_⟩, hclive, hcmade, hcrecovered,
    wrapper, _, hlist, rfl, ?_, ?_, ?_⟩
  · simp only [hcidle]
    omega
  · simp only [hccurrent, hcidle, hcheld, List.length_cons]
    push_cast
    omega
  · intro hmax'
    simp only [hccurrent]
    exact hmax hmax'
  · simp only [hclive]
    exact halloc
  · simp only [hclive]
    exact hpointer
  · exact hfront
  · exact congrArg (_ :: ·) hcheld
  · exact congrArg (· ++ _) hcreturned

/-! ## Releasing and tidying -/

/-- What a release without a fault leaves. -/
theorem releaseObject_of_not (obj : Int) (cleanup : Bool)
    (h : ¬ (cleanup = true ∧ c.initSize < s.idleSize)) :
    s.releaseObject c obj cleanup =
      { s with
        held := s.held.erase obj
        recovered := s.recovered ++ [⟨obj - objectOffset, obj⟩]
        list := s.list ++ [obj - objectOffset]
        idleSize := s.idleSize + 1 } := by
  rw [releaseObject]
  exact if_neg h

/-- The wrapper that is deleted is none. -/
theorem fault_releaseObject (halloc : Allocated c s.live) (obj : Int) (cleanup : Bool)
    (h : cleanup = true ∧ c.initSize < s.idleSize) :
    (s.releaseObject c obj cleanup).fault ≠ none := by
  have hnot := not_mem_of_allocated halloc obj
  unfold releaseObject free
  simp only [if_pos h, if_neg hnot]
  simp

/-- There is a wrapper at an address. -/
def IsWrapper (s : SimplePool) (wrapper : Int) : Prop := ∃ r ∈ s.live, r.wrapper = wrapper

/-- It is the one that goes with the object that it points to. -/
theorem isWrapper_iff (hpointer : ∀ r ∈ s.live, s.pointer r.wrapper = r.object) (wrapper : Int) :
    s.IsWrapper wrapper ↔ (⟨wrapper, s.pointer wrapper⟩ : RefObject) ∈ s.live := by
  constructor
  · rintro ⟨r, hr, rfl⟩
    rw [hpointer r hr]
    exact hr
  · intro h
    exact ⟨_, h, rfl⟩

/-- The loop comes to the end of the list. -/
theorem fault_tidyLoop_of_lt {n : Nat} (h : s.list.length < n) : (tidyLoop n s).fault ≠ none := by
  induction n generalizing s with
  | zero => omega
  | succ n ih =>
    unfold tidyLoop
    split
    · simp
    · next wrapper hlast =>
      simp only
      split
      · next hfault => exact Option.isSome_iff_ne_none.mp hfault
      · apply ih
        -- Each round takes one wrapper off the list.
        have hne : s.list ≠ [] := by
          rintro hnil
          rw [hnil] at hlast
          cases hlast
        have hpos := List.length_pos_iff.mpr hne
        unfold free
        split_ifs
        all_goals
          simp only [List.length_dropLast]
          omega

/-- A wrapper that has been freed is none any more; the others still are. -/
theorem exists_mem_erase_iff (halloc : Allocated c refs) (hr : r ∈ refs) (wrapper : Int) :
    (∃ r' ∈ refs.erase r, r'.wrapper = wrapper) ↔
      (∃ r' ∈ refs, r'.wrapper = wrapper) ∧ wrapper ≠ r.wrapper := by
  obtain ⟨l₁, l₂, -, rfl, herase⟩ := List.exists_erase_eq hr
  rw [herase]
  constructor
  · rintro ⟨r', hr', rfl⟩
    rcases List.mem_append.mp hr' with hr' | hr'
    · exact ⟨⟨r', by simp [hr'], rfl⟩, wrapper_ne halloc hr' List.mem_cons_self⟩
    · refine ⟨⟨r', by simp [hr'], rfl⟩, fun heq => ?_⟩
      have hsplit : l₁ ++ r :: l₂ = (l₁ ++ [r]) ++ l₂ := by simp
      rw [hsplit] at halloc
      exact wrapper_ne halloc (by simp) hr' heq.symm
  · rintro ⟨⟨r', hr', rfl⟩, hne⟩
    refine ⟨r', ?_, rfl⟩
    rw [List.mem_append, List.mem_cons] at hr'
    rcases hr' with hr' | rfl | hr'
    · exact List.mem_append_left _ hr'
    · exact absurd rfl hne
    · exact List.mem_append_right _ hr'

/-- What rounds of the loop of `Tidy` without a fault leave. -/
structure Tidied (s : SimplePool) (keep : List Int) (n : Nat) (s' : SimplePool) : Prop where
  list_eq : s'.list = keep
  idleSize_eq : s'.idleSize = s.idleSize - n
  currentSize_eq : s'.currentSize = s.currentSize - n
  mem_eq : s'.mem = s.mem
  live_sublist : s'.live.Sublist s.live
  held_eq : s'.held = s.held

/-- One round of the loop frees the last wrapper in the list, with its object. -/
theorem tidyLoop_succ {keep : List Int} {wrapper : Int} (n : Nat) (hfault : s.fault = none)
    (hlist : s.list = keep ++ [wrapper])
    (hmem : (⟨wrapper, s.pointer wrapper⟩ : RefObject) ∈ s.live) :
    tidyLoop (n + 1) s = tidyLoop n { s with
      idleSize := s.idleSize - 1
      currentSize := s.currentSize - 1
      list := keep
      live := s.live.erase ⟨wrapper, s.pointer wrapper⟩ } := by
  have hlast : s.list.getLast? = some wrapper := by rw [hlist, List.getLast?_concat]
  have hdrop : s.list.dropLast = keep := by rw [hlist, List.dropLast_concat]
  rw [tidyLoop, hlast]
  simp only [free, if_pos hmem, hdrop, hfault]
  simp

/-- Where it is not a wrapper that goes with its object, the loop goes wrong. -/
theorem fault_tidyLoop_succ {keep : List Int} {wrapper : Int} (n : Nat)
    (hlist : s.list = keep ++ [wrapper])
    (hmem : (⟨wrapper, s.pointer wrapper⟩ : RefObject) ∉ s.live) :
    (tidyLoop (n + 1) s).fault ≠ none := by
  have hlast : s.list.getLast? = some wrapper := by rw [hlist, List.getLast?_concat]
  rw [tidyLoop, hlast]
  simp [free, hmem]

/-- The wrappers at the end of the list are freed, where they are wrappers, each once. -/
theorem tidyLoop_spec {keep tail : List Int} (hfault : s.fault = none)
    (halloc : Allocated c s.live) (hpointer : ∀ r ∈ s.live, s.pointer r.wrapper = r.object)
    (hlist : s.list = keep ++ tail) :
    ((tidyLoop tail.length s).fault = none ↔ tail.Nodup ∧ ∀ w ∈ tail, s.IsWrapper w) ∧
      ((tidyLoop tail.length s).fault = none →
        Tidied s keep tail.length (tidyLoop tail.length s)) := by
  induction tail using List.reverseRecOn generalizing s with
  | nil =>
    rw [List.append_nil] at hlist
    refine ⟨by simp [tidyLoop, hfault], fun _ => ?_⟩
    exact ⟨hlist, by simp [tidyLoop], by simp [tidyLoop], rfl, List.Sublist.refl _, rfl⟩
  | append_singleton tail wrapper ih =>
    rw [← List.append_assoc] at hlist
    rw [List.length_append, List.length_singleton]
    by_cases hmem : (⟨wrapper, s.pointer wrapper⟩ : RefObject) ∈ s.live
    · -- One round, and then the others.
      rw [tidyLoop_succ _ hfault hlist hmem]
      obtain ⟨s₁, hs₁⟩ : ∃ s₁ : SimplePool, s₁ = { s with
          idleSize := s.idleSize - 1
          currentSize := s.currentSize - 1
          list := keep ++ tail
          live := s.live.erase ⟨wrapper, s.pointer wrapper⟩ } := ⟨_, rfl⟩
      rw [← hs₁]
      have hsub : s₁.live.Sublist s.live := by
        rw [hs₁]
        exact List.erase_sublist
      obtain ⟨hiff, htidied⟩ := ih (by rw [hs₁, ← hfault]) (allocated_of_sublist halloc hsub)
        (by rw [hs₁]; exact fun r hr => hpointer r (List.mem_of_mem_erase hr)) (by rw [hs₁])
      have hwrapper : ∀ w, s₁.IsWrapper w ↔ s.IsWrapper w ∧ w ≠ wrapper := by
        intro w
        rw [hs₁]
        exact exists_mem_erase_iff halloc hmem w
      refine ⟨?_, fun hdone => ?_⟩
      · -- The other wrappers must be wrappers still, so none of them is this one.
        rw [hiff, List.nodup_append]
        simp only [List.forall_mem_append, List.forall_mem_singleton, hwrapper]
        constructor
        · rintro ⟨hnodup, hall⟩
          exact ⟨⟨hnodup, List.nodup_singleton _, by simpa using fun w hw => (hall w hw).2⟩,
            fun w hw => (hall w hw).1, (isWrapper_iff hpointer wrapper).mpr hmem⟩
        · rintro ⟨⟨hnodup, -, hne⟩, hall, -⟩
          exact ⟨hnodup, fun w hw => ⟨hall w hw, hne w hw⟩⟩
      · obtain ⟨hlist', hidle, hcurrent, hmem', hlive, hheld⟩ := htidied hdone
        refine ⟨hlist', ?_, ?_, hmem'.trans (by rw [hs₁]), hlive.trans hsub,
          hheld.trans (by rw [hs₁])⟩
        · rw [hidle, hs₁]
          push_cast
          ring
        · rw [hcurrent, hs₁]
          push_cast
          ring
    · have hbad := fault_tidyLoop_succ tail.length hlist hmem
      refine ⟨⟨fun h => absurd h hbad, ?_⟩, fun h => absurd h hbad⟩
      rintro ⟨-, hall⟩
      exact absurd ((isWrapper_iff hpointer wrapper).mp (hall wrapper (by simp))) hmem

/-- `Tidy` frees the wrappers behind the first `initSize`. -/
theorem tidy_spec (h : Core c s) :
    ((s.tidy c).fault = none ↔ s.Safe c .tidy) ∧
      ((s.tidy c).fault = none → ∃ n : Nat,
        Tidied s (s.list.take c.initSize.toNat) n (s.tidy c) ∧
          s.list.length = (s.list.take c.initSize.toNat).length + n) := by
  have hidle := h.idleSize_eq
  rcases lt_or_ge c.initSize 0 with hneg | hpos
  · have hbad : (s.tidy c).fault ≠ none := fault_tidyLoop_of_lt (by omega)
    exact ⟨⟨fun hf => absurd hf hbad, fun hsafe => absurd hsafe.1 (by omega)⟩,
      fun hf => absurd hf hbad⟩
  · have hlength : (s.idleSize - c.initSize).toNat = (s.list.drop c.initSize.toNat).length := by
      rw [List.length_drop]
      omega
    obtain ⟨hiff, htidied⟩ := tidyLoop_spec h.fault_eq h.allocated h.pointer_eq
      (List.take_append_drop c.initSize.toNat s.list).symm
    rw [tidy, hlength]
    refine ⟨hiff.trans ⟨fun hall => ⟨hpos, hall⟩, fun hsafe => hsafe.2⟩, fun hf => ?_⟩
    refine ⟨_, htidied hf, ?_⟩
    rw [List.length_take, List.length_drop]
    omega

/-! ## Steps -/

/-- A step from a state without a fault. -/
theorem next_of_core (h : Core c s) :
    s.next c l = match l with
      | .getObject refs => s.getObject c refs
      | .releaseObject obj cleanup =>
        if obj ∈ s.held then some (s.releaseObject c obj cleanup) else none
      | .tidy => some (s.tidy c)
      | .write a v =>
        if ∀ r ∈ s.live, a ≠ r.wrapper + objectOffset then
          some { s with mem := Function.update s.mem a v }
        else none := by
  unfold next
  rw [h.fault_eq]
  rfl

/-- A step has a defined effect exactly where it is safe. -/
theorem fault_eq_none_iff_safe (h : Core c s) (hnext : s.next c l = some s') :
    s'.fault = none ↔ s.Safe c l := by
  rw [next_of_core h] at hnext
  cases l with
  | getObject refs =>
    constructor
    · intro hfault
      rcases getObject_cases h hnext with ⟨-, hbad⟩ | ⟨hsafe, -⟩
      · exact absurd hfault hbad
      · exact hsafe
    · intro hsafe
      exact (gets_of_safe h hsafe hnext).core.fault_eq
  | releaseObject obj cleanup =>
    simp only at hnext
    split at hnext
    · obtain rfl := Option.some.inj hnext
      -- A release goes wrong only where it cleans up.
      by_cases hclean : cleanup = true ∧ c.initSize < s.idleSize
      · exact ⟨fun hf => absurd hf (fault_releaseObject h.allocated obj cleanup hclean),
          fun hsafe => absurd hclean hsafe⟩
      · rw [releaseObject_of_not obj cleanup hclean]
        exact ⟨fun _ => hclean, fun _ => h.fault_eq⟩
    · cases hnext
  | tidy =>
    obtain rfl := Option.some.inj hnext
    exact (tidy_spec h).1
  | write a v =>
    simp only at hnext
    split at hnext
    · obtain rfl := Option.some.inj hnext
      exact ⟨fun _ => trivial, fun _ => h.fault_eq⟩
    · cases hnext

/-- What holds of a pool is kept by a step that has a defined effect. -/
theorem Core.next (h : Core c s) (hsafe : s.Safe c l) (hnext : s.next c l = some s') :
    Core c s' := by
  have hfault := (fault_eq_none_iff_safe h hnext).mpr hsafe
  have hidle := h.idleSize_eq
  have hcurrent := h.currentSize_eq
  rw [next_of_core h] at hnext
  cases l with
  | getObject refs => exact (gets_of_safe h hsafe hnext).core
  | releaseObject obj cleanup =>
    simp only at hnext
    split at hnext
    · next hheld =>
      obtain rfl := Option.some.inj hnext
      -- An object that was held is idle again.
      have hpos := List.length_pos_of_mem hheld
      rw [releaseObject_of_not obj cleanup hsafe]
      refine ⟨h.fault_eq, ?_, ?_, h.currentSize_le, h.allocated, h.pointer_eq⟩
      · simp [hidle]
      · simp only [List.length_erase_of_mem hheld]
        omega
    · cases hnext
  | tidy =>
    obtain rfl := Option.some.inj hnext
    -- The wrappers that are freed are idle ones.
    obtain ⟨n, ⟨hlist, hidle', hcurrent', hmem, hlive, hheld⟩, hlength⟩ := (tidy_spec h).2 hfault
    refine ⟨hfault, ?_, ?_, fun hmax => ?_, allocated_of_sublist h.allocated hlive, fun r hr => ?_⟩
    · rw [hidle', hlist]
      omega
    · rw [hcurrent', hidle', hheld]
      omega
    · have := h.currentSize_le hmax
      omega
    · rw [pointer, hmem]
      exact h.pointer_eq r (hlive.subset hr)
  | write a v =>
    simp only at hnext
    split at hnext
    · next hfree =>
      obtain rfl := Option.some.inj hnext
      -- No wrapper is written to.
      refine ⟨h.fault_eq, hidle, hcurrent, h.currentSize_le, h.allocated, fun r hr => ?_⟩
      exact (Function.update_of_ne (hfree r hr).symm _ _).trans (h.pointer_eq r hr)
    · cases hnext

/-- The pool that the constructor makes. -/
theorem core_new (start : PoolStart c) : Core c (new start) := by
  obtain ⟨hlist, hidle, hcurrent, hlive, -, hheld, hfault, -⟩ :=
    create_eq ⟨0, 0, [], start.mem, [], [], none, [], [], []⟩ start.refs
  have hlength := start.length_eq
  refine ⟨hfault, ?_, ?_, fun hmax => ?_, ?_, ?_⟩
  · rw [new, hidle, hlist]
    simp
  · rw [new, hcurrent, hidle, hheld]
    simp
  · rw [new, hcurrent]
    simp only
    split_ifs at hlength
    · omega
    · omega
  · rw [new, hlive]
    exact start.allocated
  · rw [new]
    rw [hlive]
    exact pointer_create (s := ⟨0, 0, [], start.mem, [], [], none, [], [], []⟩) start.allocated
      (fun r hr => by cases hr)

/-- Without a fault, the accounts are right where no object is held twice. -/
theorem Core.accounted_iff_nodup (h : Core c s) : s.Accounted c ↔ s.held.Nodup := by
  have hidle := h.idleSize_eq
  have hcurrent := h.currentSize_eq
  refine ⟨Accounted.held_nodup, fun hnodup => ?_⟩
  exact ⟨h.fault_eq, hidle, by omega, by omega, h.currentSize_le, hnodup⟩

/-- After a step that has a defined effect, no object is held twice where the one that is handed out
was not held. -/
theorem held_nodup_iff (h : Core c s) (hnodup : s.held.Nodup) (hsafe : s.Safe c l)
    (hnext : s.next c l = some s') : s'.held.Nodup ↔ s.KeepsAccounts c l := by
  have hfault := (fault_eq_none_iff_safe h hnext).mpr hsafe
  rw [next_of_core h] at hnext
  cases l with
  | getObject refs =>
    obtain ⟨wrapper, obj, -, -, hfront, hheld, -⟩ := (gets_of_safe h hsafe hnext).takes
    -- The object at the front may be held already.
    have hmem : some obj ∈ s.held.map some ↔ obj ∈ s.held := by simp
    rw [hheld, List.nodup_cons, KeepsAccounts, hfront, hmem]
    exact ⟨fun hh => ⟨hsafe, hh.1⟩, fun hh => ⟨hh.2, hnodup⟩⟩
  | releaseObject obj cleanup =>
    simp only at hnext
    split at hnext
    · obtain rfl := Option.some.inj hnext
      rw [releaseObject_of_not obj cleanup hsafe]
      exact ⟨fun _ => hsafe, fun _ => hnodup.erase obj⟩
    · cases hnext
  | tidy =>
    obtain rfl := Option.some.inj hnext
    obtain ⟨n, htidied, -⟩ := (tidy_spec h).2 hfault
    rw [htidied.held_eq]
    exact ⟨fun _ => hsafe, fun _ => hnodup⟩
  | write a v =>
    simp only at hnext
    split at hnext
    · obtain rfl := Option.some.inj hnext
      exact ⟨fun _ => trivial, fun _ => hnodup⟩
    · cases hnext

theorem safe_of_keepsAccounts (h : s.KeepsAccounts c l) : s.Safe c l := by
  cases l with
  | getObject refs => exact h.1
  | releaseObject obj cleanup => exact h
  | tidy => exact h
  | write a v => exact h

/-- A step leaves right accounts exactly where `KeepsAccounts` says so. -/
theorem accounted_next_iff (h : Core c s) (hnodup : s.held.Nodup) (hnext : s.next c l = some s') :
    s'.Accounted c ↔ s.KeepsAccounts c l := by
  constructor
  · intro haccounted
    have hsafe := (fault_eq_none_iff_safe h hnext).mp haccounted.fault_eq
    exact (held_nodup_iff h hnodup hsafe hnext).mp haccounted.held_nodup
  · intro hkeeps
    have hsafe := safe_of_keepsAccounts hkeeps
    apply (h.next hsafe hnext).accounted_iff_nodup.mpr
    exact (held_nodup_iff h hnodup hsafe hnext).mpr hkeeps

theorem core_of_reachable {start : PoolStart c}
    (h : ((simplePool c start).restrict (KeepsAccounts c)).Reachable s) :
    Core c s ∧ s.held.Nodup := by
  apply TransitionSystem.Reachable.invariant_restrict (P := fun s => Core c s ∧ s.held.Nodup) _ _ h
  · refine ⟨core_new start, ?_⟩
    have hheld := (create_eq ⟨0, 0, [], start.mem, [], [], none, [], [], []⟩ start.refs).2.2.2.2.2.1
    rw [simplePool, new, hheld]
    exact List.nodup_nil
  · intro s l s' hs hkeeps hnext
    have hsafe := safe_of_keepsAccounts hkeeps
    exact ⟨hs.1.next hsafe hnext, (held_nodup_iff hs.1 hs.2 hsafe hnext).mpr hkeeps⟩

/-- The accounts are right as long as every step keeps them: `GetObject` on a pool that is not
exhausted, of an object that is not held; `ReleaseObject` that does not clean up above `initSize`;
`Tidy` for an `initSize` that is not negative, of wrappers that `Create` has made. The first other
step leaves them wrong. -/
theorem accounted_iff (c : PoolConfig) (start : PoolStart c) :
    (∀ s, ((simplePool c start).restrict (KeepsAccounts c)).Reachable s → s.Accounted c) ∧
      ∀ s l s', ((simplePool c start).restrict (KeepsAccounts c)).Reachable s →
        (simplePool c start).next s l = some s' → (s'.Accounted c ↔ s.KeepsAccounts c l) := by
  constructor
  · intro s hreach
    obtain ⟨hcore, hnodup⟩ := core_of_reachable hreach
    exact hcore.accounted_iff_nodup.mpr hnodup
  · intro s l s' hreach hnext
    obtain ⟨hcore, hnodup⟩ := core_of_reachable hreach
    exact accounted_next_iff hcore hnodup hnext

/-- A pool of at most one object of eight bytes, which begins with none. -/
def onePool : PoolConfig where
  initSize := 0
  incSize := 1
  maxSize := 1
  objectSize := 8
  one_le_incSize := by decide
  initSize_lt := by decide
  maxSize_lt := by decide
  objectSize_pos := by decide

/-- It begins in a memory of zeros. -/
def oneStart : PoolStart onePool where
  mem := fun _ => 0
  refs := []
  length_eq := by decide
  allocated := List.Pairwise.nil

/-- A pool of at most two objects, which begins with none. -/
def twoPool : PoolConfig := { onePool with maxSize := 2, maxSize_lt := by decide }

/-- It begins in a memory of zeros. -/
def twoStart : PoolStart twoPool where
  mem := fun _ => 0
  refs := []
  length_eq := by decide
  allocated := List.Pairwise.nil

/-- Both objects are handed out, the first is released and there is one to get again. The accounts
are right. -/
theorem accounted_twoPool :
    ∃ s, ((simplePool twoPool twoStart).restrict (KeepsAccounts twoPool)).exec (.new twoStart)
      [.getObject [⟨16, 48⟩, ⟨64, 96⟩], .getObject [], .releaseObject 48 false, .getObject []] =
        some s ∧ s.Accounted twoPool := by
  obtain ⟨s, hs⟩ := Option.isSome_iff_exists.mp (rfl :
    (((simplePool twoPool twoStart).restrict (KeepsAccounts twoPool)).exec (.new twoStart)
      [.getObject [⟨16, 48⟩, ⟨64, 96⟩], .getObject [], .releaseObject 48 false,
        .getObject []]).isSome = true)
  exact ⟨s, hs, (accounted_iff twoPool twoStart).1 s (TransitionSystem.reachable_of_exec hs)⟩

/-- A second call takes the front of the empty list. -/
theorem not_accounted_onePool :
    ∃ s, (simplePool onePool oneStart).Reachable s ∧ ¬ s.Accounted onePool := by
  obtain ⟨s, hs, hfault⟩ : ∃ s, (simplePool onePool oneStart).exec (.new oneStart)
      [.getObject [⟨16, 48⟩], .getObject []] = some s ∧ s.fault = some .frontOfEmpty :=
    ⟨_, rfl, rfl⟩
  refine ⟨s, TransitionSystem.reachable_of_exec hs, fun h => ?_⟩
  rw [h.fault_eq] at hfault
  cases hfault

/-! ## Addresses -/

/-- Every wrapper in the list was made by `Create`, every object that was returned was created by
the allocator, and `ReleaseObject` has found the wrapper of each object that was released. -/
structure RoundTrips (s : SimplePool) : Prop where
  fault_eq : s.fault = none
  list_made : ∀ wrapper ∈ s.list, ∃ r ∈ s.made, r.wrapper = wrapper
  returned_made : ∀ obj ∈ s.returned, ∃ r ∈ s.made, r.object = obj
  recovered_made : ∀ r ∈ s.recovered, r ∈ s.made

/-- A step that is no release, and no `GetObject` on an exhausted pool. -/
def OnlyGets (c : PoolConfig) (s : SimplePool) : PoolLabel → Prop
  | .getObject refs => s.Safe c (.getObject refs)
  | .releaseObject .. => False
  | .tidy => False
  | .write .. => True

instance (c : PoolConfig) (s : SimplePool) (l : PoolLabel) : Decidable (s.OnlyGets c l) := by
  unfold OnlyGets
  cases l
  all_goals infer_instance

/-- What holds as long as nothing is released or freed. -/
structure Fresh (c : PoolConfig) (s : SimplePool) : Prop where
  core : Core c s
  live_eq : s.live = s.made
  roundTrips : s.RoundTrips

theorem fresh_new (start : PoolStart c) : Fresh c (new start) := by
  obtain ⟨hlist, -, -, hlive, hmade, -, hfault, hreturned, hrecovered⟩ :=
    create_eq ⟨0, 0, [], start.mem, [], [], none, [], [], []⟩ start.refs
  refine ⟨core_new start, hlive.trans hmade.symm, hfault, ?_, ?_, ?_⟩
  · rw [new, hlist, hmade]
    intro wrapper hw
    simpa using hw
  · rw [new, hreturned]
    intro obj hobj
    cases hobj
  · rw [new, hrecovered]
    intro r hr
    cases hr

theorem Fresh.next (h : Fresh c s) (honly : s.OnlyGets c l) (hnext : s.next c l = some s') :
    Fresh c s' := by
  have hnext' := hnext
  rw [next_of_core h.core] at hnext'
  cases l with
  | getObject refs =>
    have hgets := gets_of_safe h.core honly hnext'
    have hlive : s'.live = s'.made := by rw [hgets.live_eq, hgets.made_eq, h.live_eq]
    obtain ⟨wrapper, obj, hlist, hobj, -, -, hreturned⟩ := hgets.takes
    -- the old wrappers and the new ones
    have hall : ∀ w ∈ wrapper :: s'.list, ∃ r ∈ s'.made, r.wrapper = w := by
      intro w hw
      rw [← hlist, List.mem_append, List.mem_map] at hw
      rw [hgets.made_eq]
      rcases hw with hw | ⟨r, hr, rfl⟩
      · obtain ⟨r, hr, heq⟩ := h.roundTrips.list_made w hw
        exact ⟨r, List.mem_append_left _ hr, heq⟩
      · exact ⟨r, List.mem_append_right _ hr, rfl⟩
    refine ⟨hgets.core, hlive, hgets.core.fault_eq,
      fun w hw => hall w (List.mem_cons_of_mem _ hw), fun o ho => ?_, fun r hr => ?_⟩
    · rw [hreturned, List.mem_append, List.mem_singleton] at ho
      rcases ho with ho | rfl
      · obtain ⟨r, hr, heq⟩ := h.roundTrips.returned_made o ho
        exact ⟨r, by rw [hgets.made_eq]; exact List.mem_append_left _ hr, heq⟩
      · obtain ⟨r, hr, rfl⟩ := hall wrapper List.mem_cons_self
        exact ⟨r, hr, by rw [hobj, hgets.core.pointer_eq r (by rw [hlive]; exact hr)]⟩
    · rw [hgets.recovered_eq] at hr
      rw [hgets.made_eq]
      exact List.mem_append_left _ (h.roundTrips.recovered_made r hr)
  | releaseObject obj cleanup => exact honly.elim
  | tidy => exact honly.elim
  | write a v =>
    have hcore := h.core.next (l := .write a v) trivial hnext
    simp only at hnext'
    split at hnext'
    · obtain rfl := Option.some.inj hnext'
      obtain ⟨hfault, hlist, hreturned, hrecovered⟩ := h.roundTrips
      exact ⟨hcore, h.live_eq, hfault, hlist, hreturned, hrecovered⟩
    · cases hnext'

/-- A release finds no wrapper. -/
theorem not_roundTrips_releaseObject (h : Fresh c s) (obj : Int) (cleanup : Bool) :
    ¬ (s.releaseObject c obj cleanup).RoundTrips := by
  intro hround
  by_cases hclean : cleanup = true ∧ c.initSize < s.idleSize
  · exact fault_releaseObject h.core.allocated obj cleanup hclean hround.fault_eq
  · rw [releaseObject_of_not obj cleanup hclean] at hround
    have hmade := hround.recovered_made ⟨obj - objectOffset, obj⟩ (by simp)
    apply not_mem_of_allocated h.core.allocated obj
    rw [h.live_eq]
    exact hmade

theorem fresh_of_reachable {start : PoolStart c}
    (h : ((simplePool c start).restrict (OnlyGets c)).Reachable s) : Fresh c s := by
  apply TransitionSystem.Reachable.invariant_restrict (P := fun s => Fresh c s) (fresh_new start)
    _ h
  intro s l s' hs honly hnext
  exact hs.next honly hnext

/-- The addresses are right as long as nothing is released and no `GetObject` comes upon an
exhausted pool. The first other call leaves them wrong. -/
theorem roundTrips_iff_onlyGets (c : PoolConfig) (start : PoolStart c) :
    (∀ s, ((simplePool c start).restrict (OnlyGets c)).Reachable s → s.RoundTrips) ∧
      ∀ s l s', ((simplePool c start).restrict (OnlyGets c)).Reachable s → l ≠ .tidy →
        (simplePool c start).next s l = some s' → (s'.RoundTrips ↔ s.OnlyGets c l) := by
  constructor
  · intro s hreach
    exact (fresh_of_reachable hreach).roundTrips
  · intro s l s' hreach htidy hstep
    have h := fresh_of_reachable hreach
    have hnext : s.next c l = some s' := hstep
    refine ⟨fun hround => ?_, fun honly => (h.next honly hnext).roundTrips⟩
    cases l with
    | getObject refs => exact (fault_eq_none_iff_safe h.core hnext).mp hround.fault_eq
    | releaseObject obj cleanup =>
      simp only [next_of_core h.core] at hnext
      split at hnext
      · obtain rfl := Option.some.inj hnext
        exact not_roundTrips_releaseObject h obj cleanup hround
      · cases hnext
    | tidy => exact htidy rfl
    | write a v => exact trivial

/-- Both objects are handed out, with a write of the caller in between, and are those that were
created. -/
theorem roundTrips_twoPool :
    ∃ s, ((simplePool twoPool twoStart).restrict (OnlyGets twoPool)).exec (.new twoStart)
      [.getObject [⟨16, 48⟩, ⟨64, 96⟩], .write 48 7, .getObject []] = some s ∧
        s.returned = [48, 96] ∧ s.RoundTrips := by
  obtain ⟨s, hs, hreturned⟩ :
      ∃ s, ((simplePool twoPool twoStart).restrict (OnlyGets twoPool)).exec (.new twoStart)
        [.getObject [⟨16, 48⟩, ⟨64, 96⟩], .write 48 7, .getObject []] = some s ∧
          s.returned = [48, 96] := ⟨_, rfl, rfl⟩
  exact ⟨s, hs, hreturned,
    (roundTrips_iff_onlyGets twoPool twoStart).1 s (TransitionSystem.reachable_of_exec hs)⟩

/-- It is released, and the list has the address in front of it. -/
theorem not_roundTrips_onePool :
    ∃ s, (simplePool onePool oneStart).Reachable s ∧ s.list = [40] ∧ ¬ s.RoundTrips := by
  obtain ⟨s, hs, hlist, hmade⟩ : ∃ s, (simplePool onePool oneStart).exec (.new oneStart)
      [.getObject [⟨16, 48⟩], .releaseObject 48 false] = some s ∧ s.list = [40] ∧
        s.made = [⟨16, 48⟩] := ⟨_, rfl, rfl, rfl⟩
  refine ⟨s, TransitionSystem.reachable_of_exec hs, hlist, fun h => ?_⟩
  obtain ⟨r, hr, hwrapper⟩ := h.list_made 40 (by simp [hlist])
  rw [hmade, List.mem_singleton] at hr
  rw [hr] at hwrapper
  exact absurd hwrapper (by decide)

end SimplePool

end MosqCluster
