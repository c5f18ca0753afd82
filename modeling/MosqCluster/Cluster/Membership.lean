import MosqCluster.Cluster.Model
import Mathlib.Data.List.Nodup

/-!
# Who hears of whom

What the cluster is for, without queues and connections: which node knows which, which monitors
subscribe where, and which names are on their way. A node learns of another one from the reply to
its join, or from a name that is sent to a broker while its monitor there is subscribed. The history
says when that was the case.

## Main definitions

* `Membership` and `Membership.Step`: the abstract state and its steps;
* `HearsOf`: the order of events in which a node comes to know another one;
* `Membership.Sound`: how the state reflects its history.

## Main results

* `Membership.Sound.step`: a node knows, or is about to know, exactly the nodes it hears of;
* `Membership.FirstAlone.step`: where nodes join one after another, the first one knows nobody.
-/

namespace MosqCluster

/-- The event `e` has happened before `e'`. -/
def Before (history : List Event) (e e' : Event) : Prop := [e, e'].Sublist history

/-- The node `a` hears of `b`: `b` was registered before the service read the names for the reply to
`a`, or the name `b` came to a broker where `a` was subscribed before. -/
def HearsOf (history : List Event) (a b : Bytes) : Prop :=
  Before history (.registered b) (.answered a) ∨
    ∃ x, Before history (.subscribed a x) (.announced b x)

/-- The abstract state. -/
@[ext]
structure Membership where
  /-- Which nodes have which others in their lists. -/
  knows : Bytes → Bytes → Prop
  /-- Which nodes are subscribed on which brokers. -/
  subscribed : Bytes → Bytes → Prop
  /-- Which names are on their way to which nodes from which brokers. -/
  inFlight : Bytes → Bytes → Bytes → Prop
  /-- How far each node has come with its join. -/
  phase : Bytes → JoinPhase
  /-- The registered names. -/
  registry : List Bytes
  /-- What has happened. -/
  history : List Event

namespace Membership

variable {s s' : Membership}

/-- The abstract steps. -/
inductive Step (s : Membership) : Membership → Prop
  /-- Something else happens. -/
  | silent : Step s s
  /-- The service registers a name. -/
  | register (a : Bytes) (h : s.phase a = .idle) :
      Step s { s with
        phase := Function.update s.phase a .registered
        registry := s.registry ++ [a]
        history := s.history ++ [.registered a] }
  /-- The service reads the names for a reply. -/
  | answer (a : Bytes) (h : s.phase a = .registered) :
      Step s { s with
        phase := Function.update s.phase a (.answered s.registry)
        history := s.history ++ [.answered a] }
  /-- A node takes over the names of its reply. -/
  | takeOver (a : Bytes) (nodes : List Bytes) (h : s.phase a = .answered nodes) :
      Step s { s with
        phase := Function.update s.phase a (.joined nodes)
        knows := fun b y => s.knows b y ∨ b = a ∧ y ∈ nodes ∧ y ≠ a }
  /-- The monitor of a node is subscribed on a broker. -/
  | subscribe (a x : Bytes) (h : s.knows a x) :
      Step s { s with
        subscribed := fun b y => s.subscribed b y ∨ b = a ∧ y = x
        history := s.history ++ [.subscribed a x] }
  /-- A name comes to a broker. -/
  | announce (b x : Bytes) :
      Step s { s with
        inFlight := fun a y z => s.inFlight a y z ∨ y = x ∧ z = b ∧ s.subscribed a x
        history := s.history ++ [.announced b x] }
  /-- A name reaches a node. -/
  | deliver (a x b : Bytes) (h : s.inFlight a x b) (inFlight : Bytes → Bytes → Bytes → Prop)
      (hold : ∀ a' y z, inFlight a' y z → s.inFlight a' y z)
      (hkeep : ∀ a' y z, s.inFlight a' y z → inFlight a' y z ∨ a' = a ∧ y = x ∧ z = b) :
      Step s { s with
        inFlight := inFlight
        knows := fun a' y => s.knows a' y ∨ a' = a ∧ y = b ∧ y ≠ a }

/-- A name that is about to become known. -/
def Pending (s : Membership) (a b : Bytes) : Prop :=
  (∃ nodes, s.phase a = .answered nodes ∧ b ∈ nodes) ∨ ∃ x, s.inFlight a x b

/-- How the abstract state reflects its history. -/
structure Sound (s : Membership) : Prop where
  /-- The registered names are those whose registration has happened. -/
  registered : ∀ b, b ∈ s.registry ↔ .registered b ∈ s.history
  /-- The registered nodes are those that have begun to join. -/
  idle : ∀ a, s.phase a = .idle ↔ a ∉ s.registry
  /-- The reply to a node that waits for it has not been made. -/
  unanswered : ∀ a, s.phase a = .idle ∨ s.phase a = .registered → .answered a ∉ s.history
  /-- A reply carries the names registered before it. -/
  answered : ∀ a nodes, s.phase a = .answered nodes ∨ s.phase a = .joined nodes →
    ∀ b, b ∈ nodes ↔ Before s.history (.registered b) (.answered a)
  /-- The subscriptions are those that have happened. -/
  subscribed : ∀ a x, s.subscribed a x ↔ .subscribed a x ∈ s.history
  /-- A node subscribes on the brokers of the nodes it knows. -/
  subscribed_knows : ∀ a x, s.subscribed a x → s.knows a x
  /-- A node is sent the names that come after its subscription. -/
  inFlight : ∀ a x b, s.inFlight a x b → Before s.history (.subscribed a x) (.announced b x)
  /-- What a node knows it has heard of. -/
  knows : ∀ a b, s.knows a b → b ≠ a ∧ HearsOf s.history a b
  /-- Only a node that has joined knows another one. -/
  joined : ∀ a b, s.knows a b → ∃ nodes, s.phase a = .joined nodes
  /-- What a node hears of it knows, or is about to know. -/
  complete : ∀ a b, HearsOf s.history a b → b = a ∨ s.knows a b ∨ s.Pending a b
  /-- No name is registered twice. -/
  nodup : s.registry.Nodup

/-- A name is on its way to a node only from the broker of a node that it knows. -/
theorem Sound.knows_of_inFlight (hs : s.Sound) {a x b : Bytes} (h : s.inFlight a x b) :
    s.knows a x := by
  have hsub : .subscribed a x ∈ s.history := (hs.inFlight a x b h).subset (by simp)
  exact hs.subscribed_knows a x ((hs.subscribed a x).mpr hsub)

/-- A node that has joined is not affected by the join of another node. -/
theorem joined_update {phase : Bytes → JoinPhase} {a b : Bytes} {next : JoinPhase}
    (h : ∃ nodes, phase b = .joined nodes) (ha : ∀ nodes, phase a ≠ .joined nodes) :
    ∃ nodes, Function.update phase a next b = .joined nodes := by
  obtain ⟨nodes, hb⟩ := h
  have hba : b ≠ a := by
    rintro rfl
    exact ha nodes hb
  exact ⟨nodes, by simpa [hba] using hb⟩

/-! ## The order of events -/

/-- Two events are in order in a history that has grown by one if they were before, or if the last
one is the second of them. -/
theorem before_append {history : List Event} {e e' x : Event} :
    Before (history ++ [x]) e e' ↔ Before history e e' ∨ e' = x ∧ e ∈ history := by
  constructor
  · intro h
    obtain ⟨l₁, l₂, heq, h₁, h₂⟩ := List.sublist_append_iff.mp h
    rcases l₂ with _ | ⟨y, _ | ⟨z, l₂⟩⟩
    · exact .inl (by simpa [Before, heq] using h₁)
    · obtain rfl : y = x := by simpa using h₂
      obtain ⟨rfl, rfl⟩ : l₁ = [e] ∧ e' = y := by
        rcases l₁ with _ | ⟨u, _ | ⟨v, l₁⟩⟩ <;> simp_all
      exact .inr ⟨rfl, List.singleton_sublist.mp h₁⟩
    · simpa using h₂.length_le
  · rintro (h | ⟨rfl, h⟩)
    · exact h.trans (List.sublist_append_left _ _)
    · exact (List.singleton_sublist.mpr h).append (List.Sublist.refl [e'])

/-- Whom a node hears of in a history that has grown by one event. -/
theorem hearsOf_append {history : List Event} {x : Event} {a b : Bytes} :
    HearsOf (history ++ [x]) a b ↔ HearsOf history a b ∨
      (x = .answered a ∧ .registered b ∈ history) ∨
      ∃ y, x = .announced b y ∧ .subscribed a y ∈ history := by
  simp only [HearsOf, before_append]
  grind

/-- An event that is no announcement and no reply changes nothing about who hears of whom. -/
theorem hearsOf_append_other {history : List Event} {x : Event} {a b : Bytes}
    (hanswer : ∀ a, x ≠ .answered a) (hannounce : ∀ b y, x ≠ .announced b y) :
    HearsOf (history ++ [x]) a b ↔ HearsOf history a b := by
  simp [hearsOf_append, hanswer, hannounce]

/-- The past does not change. -/
theorem hearsOf_mono {history : List Event} {x : Event} {a b : Bytes}
    (h : HearsOf history a b) : HearsOf (history ++ [x]) a b :=
  hearsOf_append.mpr (.inl h)

/-! ## Soundness -/

/-- A node that has begun to join stays registered. -/
theorem Sound.idle_update (hs : s.Sound) {a : Bytes} {phase : JoinPhase} (ha : s.phase a ≠ .idle)
    (hphase : phase ≠ .idle) (b : Bytes) :
    Function.update s.phase a phase b = .idle ↔ b ∉ s.registry := by
  by_cases hba : b = a
  · subst hba
    simpa [hphase, hs.idle] using ha
  · simpa [hba] using hs.idle b

/-- A registration keeps the state sound. -/
theorem Sound.register (hs : s.Sound) {a : Bytes} (h : s.phase a = .idle) :
    Sound { s with
      phase := Function.update s.phase a .registered
      registry := s.registry ++ [a]
      history := s.history ++ [.registered a] } := by
  have hphase : ∀ b nodes, Function.update s.phase a .registered b = .answered nodes ∨
      Function.update s.phase a .registered b = .joined nodes →
      s.phase b = .answered nodes ∨ s.phase b = .joined nodes := by
    intro b nodes
    by_cases hb : b = a <;> simp [hb]
  constructor
  · simp [hs.registered]
  · intro b
    by_cases hba : b = a
    · simp [hba]
    · simpa [hba] using hs.idle b
  · intro b hb
    have hb : s.phase b = .idle ∨ s.phase b = .registered := by
      by_cases hba : b = a
      · exact .inl (hba ▸ h)
      · simpa [hba] using hb
    simpa using hs.unanswered b hb
  · intro b nodes hb y
    simpa [before_append] using hs.answered b nodes (hphase b nodes hb) y
  · simpa using hs.subscribed
  · exact hs.subscribed_knows
  · intro b x y hy
    exact before_append.mpr (.inl (hs.inFlight b x y hy))
  · exact fun b y hy => ⟨(hs.knows b y hy).1, hearsOf_mono (hs.knows b y hy).2⟩
  · exact fun b y hy => joined_update (hs.joined b y hy) (by simp [h])
  · intro b y hy
    rw [hearsOf_append_other (by simp) (by simp)] at hy
    rcases hs.complete b y hy with hy | hy | ⟨nodes, hb, hy⟩ | ⟨x, hy⟩
    · exact .inl hy
    · exact .inr (.inl hy)
    · have hba : b ≠ a := by
        rintro rfl
        simp [h] at hb
      exact .inr (.inr (.inl ⟨nodes, by simpa [hba] using hb, hy⟩))
    · exact .inr (.inr (.inr ⟨x, hy⟩))
  · -- A node registers once.
    refine List.nodup_append.mpr ⟨hs.nodup, List.nodup_singleton a, ?_⟩
    rintro b hb _ hba rfl
    exact (hs.idle a).mp h (List.mem_singleton.mp hba ▸ hb)

/-- A reply keeps the state sound. -/
theorem Sound.answer (hs : s.Sound) {a : Bytes} (h : s.phase a = .registered) :
    Sound { s with
      phase := Function.update s.phase a (.answered s.registry)
      history := s.history ++ [.answered a] } := by
  constructor
  · simpa using hs.registered
  · exact hs.idle_update (by simp [h]) (by simp)
  · intro b hb
    have hba : b ≠ a := by
      rintro rfl
      simp at hb
    simpa [hba] using hs.unanswered b (by simpa [hba] using hb)
  · intro b nodes hb y
    by_cases hba : b = a
    · -- the reply carries the names registered so far, and there was none before
      subst hba
      obtain rfl : s.registry = nodes := by simpa using hb
      have hnone : ¬ Before s.history (.registered y) (.answered b) := fun hbefore =>
        hs.unanswered b (.inr h) (hbefore.subset (by simp))
      simp [before_append, hnone, hs.registered]
    · have hne : Event.answered b ≠ .answered a := by simpa using hba
      simpa [before_append, hba] using hs.answered b nodes (by simpa [hba] using hb) y
  · simpa using hs.subscribed
  · exact hs.subscribed_knows
  · intro b x y hy
    exact before_append.mpr (.inl (hs.inFlight b x y hy))
  · exact fun b y hy => ⟨(hs.knows b y hy).1, hearsOf_mono (hs.knows b y hy).2⟩
  · exact fun b y hy => joined_update (hs.joined b y hy) (by simp [h])
  · intro b y hy
    rcases hearsOf_append.mp hy with hy | ⟨hba, hregistered⟩ | ⟨x, hx, -⟩
    · rcases hs.complete b y hy with hy | hy | ⟨nodes, hb, hy⟩ | ⟨x, hy⟩
      · exact .inl hy
      · exact .inr (.inl hy)
      · have hba : b ≠ a := by
          rintro rfl
          simp [h] at hb
        exact .inr (.inr (.inl ⟨nodes, by simpa [hba] using hb, hy⟩))
      · exact .inr (.inr (.inr ⟨x, hy⟩))
    · obtain rfl : a = b := by simpa using hba
      exact .inr (.inr (.inl ⟨s.registry, by simp, (hs.registered y).mpr hregistered⟩))
    · simp at hx
  · exact hs.nodup

/-- A node that takes over the names of its reply keeps the state sound. -/
theorem Sound.takeOver (hs : s.Sound) {a : Bytes} {nodes : List Bytes}
    (h : s.phase a = .answered nodes) :
    Sound { s with
      phase := Function.update s.phase a (.joined nodes)
      knows := fun b y => s.knows b y ∨ b = a ∧ y ∈ nodes ∧ y ≠ a } := by
  have hother : ∀ b, Function.update s.phase a (.joined nodes) b = .idle ∨
      Function.update s.phase a (.joined nodes) b = .registered →
      s.phase b = .idle ∨ s.phase b = .registered := by
    intro b
    by_cases hb : b = a <;> simp [hb]
  constructor
  · exact hs.registered
  · exact hs.idle_update (by simp [h]) (by simp)
  · exact fun b hb => hs.unanswered b (hother b hb)
  · intro b nodes' hb
    by_cases hba : b = a
    · subst hba
      obtain rfl : nodes = nodes' := by simpa using hb
      exact hs.answered b nodes (.inl h)
    · exact hs.answered b nodes' (by simpa [hba] using hb)
  · exact hs.subscribed
  · exact fun b x hx => .inl (hs.subscribed_knows b x hx)
  · exact hs.inFlight
  · rintro b y (hy | ⟨rfl, hy, hne⟩)
    · exact hs.knows b y hy
    · exact ⟨hne, .inl ((hs.answered b nodes (.inl h) y).mp hy)⟩
  · rintro b y (hy | ⟨rfl, -, -⟩)
    · exact joined_update (hs.joined b y hy) (by simp [h])
    · exact ⟨nodes, by simp⟩
  · intro b y hy
    rcases hs.complete b y hy with hy | hy | ⟨nodes', hb, hy⟩ | ⟨x, hy⟩
    · exact .inl hy
    · exact .inr (.inl (.inl hy))
    · by_cases hba : b = a
      · subst hba
        obtain rfl : nodes = nodes' := by simpa [h] using hb
        -- What was in the reply is now known, the own name apart.
        by_cases hyb : y = b
        · exact .inl hyb
        · exact .inr (.inl (.inr ⟨rfl, hy, hyb⟩))
      · exact .inr (.inr (.inl ⟨nodes', by simpa [hba] using hb, hy⟩))
    · exact .inr (.inr (.inr ⟨x, hy⟩))
  · exact hs.nodup

/-- A subscription keeps the state sound. -/
theorem Sound.subscribe (hs : s.Sound) {a x : Bytes} (h : s.knows a x) :
    Sound { s with
      subscribed := fun b y => s.subscribed b y ∨ b = a ∧ y = x
      history := s.history ++ [.subscribed a x] } := by
  have hhears : ∀ b y, HearsOf (s.history ++ [.subscribed a x]) b y ↔ HearsOf s.history b y :=
    fun b y => hearsOf_append_other (by simp) (by simp)
  constructor
  · simpa using hs.registered
  · exact hs.idle
  · simpa using hs.unanswered
  · simpa [before_append] using hs.answered
  · simp [hs.subscribed]
  · rintro b y (hy | ⟨rfl, rfl⟩)
    · exact hs.subscribed_knows b y hy
    · exact h
  · intro b y z hz
    exact before_append.mpr (.inl (hs.inFlight b y z hz))
  · simpa [hhears] using hs.knows
  · exact hs.joined
  · intro b y hy
    exact hs.complete b y ((hhears b y).mp hy)
  · exact hs.nodup

/-- A name that comes to a broker keeps the state sound: it is on its way to the subscribers. -/
theorem Sound.announce (hs : s.Sound) (b x : Bytes) :
    Sound { s with
      inFlight := fun a y z => s.inFlight a y z ∨ y = x ∧ z = b ∧ s.subscribed a x
      history := s.history ++ [.announced b x] } := by
  constructor
  · simpa using hs.registered
  · exact hs.idle
  · simpa using hs.unanswered
  · simpa [before_append] using hs.answered
  · simpa using hs.subscribed
  · exact hs.subscribed_knows
  · -- The name goes to those that have subscribed before.
    rintro a y z (hz | ⟨rfl, rfl, hsub⟩)
    · exact before_append.mpr (.inl (hs.inFlight a y z hz))
    · exact before_append.mpr (.inr ⟨rfl, (hs.subscribed a y).mp hsub⟩)
  · exact fun a y hy => ⟨(hs.knows a y hy).1, hearsOf_mono (hs.knows a y hy).2⟩
  · exact hs.joined
  · intro a y hy
    rcases hearsOf_append.mp hy with hold | ⟨hx, -⟩ | ⟨z, hz, hsub⟩
    · rcases hs.complete a y hold with hy | hy | hy | ⟨z, hy⟩
      · exact .inl hy
      · exact .inr (.inl hy)
      · exact .inr (.inr (.inl hy))
      · exact .inr (.inr (.inr ⟨z, .inl hy⟩))
    · simp at hx
    · -- Whoever hears of the name here has it on its way.
      obtain ⟨rfl, rfl⟩ : b = y ∧ x = z := by simpa using hz
      exact .inr (.inr (.inr ⟨x, .inr ⟨rfl, rfl, (hs.subscribed a x).mpr hsub⟩⟩))
  · exact hs.nodup

/-- A name that reaches a node keeps the state sound. -/
theorem Sound.deliver (hs : s.Sound) {a x b : Bytes} (h : s.inFlight a x b)
    {inFlight : Bytes → Bytes → Bytes → Prop}
    (hold : ∀ a' y z, inFlight a' y z → s.inFlight a' y z)
    (hkeep : ∀ a' y z, s.inFlight a' y z → inFlight a' y z ∨ a' = a ∧ y = x ∧ z = b) :
    Sound { s with
      inFlight := inFlight
      knows := fun a' y => s.knows a' y ∨ a' = a ∧ y = b ∧ y ≠ a } := by
  constructor
  · exact hs.registered
  · exact hs.idle
  · exact hs.unanswered
  · exact hs.answered
  · exact hs.subscribed
  · exact fun a' y hy => .inl (hs.subscribed_knows a' y hy)
  · exact fun a' y z hz => hs.inFlight a' y z (hold a' y z hz)
  · rintro a' y (hy | ⟨rfl, rfl, hne⟩)
    · exact hs.knows a' y hy
    · exact ⟨hne, .inr ⟨x, hs.inFlight a' x y h⟩⟩
  · rintro a' y (hy | ⟨rfl, -, -⟩)
    · exact hs.joined a' y hy
    · exact hs.joined a' x (hs.knows_of_inFlight h)
  · intro a' y hy
    rcases hs.complete a' y hy with hy | hy | hy | ⟨z, hz⟩
    · exact .inl hy
    · exact .inr (.inl (.inl hy))
    · exact .inr (.inr (.inl hy))
    · -- The name is still on its way, or has just arrived.
      rcases hkeep a' z y hz with hz | ⟨rfl, -, rfl⟩
      · exact .inr (.inr (.inr ⟨z, hz⟩))
      · by_cases hne : y = a'
        · exact .inl hne
        · exact .inr (.inl (.inr ⟨rfl, rfl, hne⟩))
  · exact hs.nodup

/-- Every abstract step keeps the state sound. -/
theorem Sound.step (hs : s.Sound) (h : s.Step s') : s'.Sound := by
  cases h with
  | silent => exact hs
  | register a h => exact hs.register h
  | answer a h => exact hs.answer h
  | takeOver a nodes h => exact hs.takeOver h
  | subscribe a x h => exact hs.subscribe h
  | announce b x => exact hs.announce b x
  | deliver a x b h inFlight hold hkeep => exact hs.deliver h hold hkeep

/-! ## The first node -/

/-- The first registered node knows nobody, and its reply carries its own name only. -/
structure FirstAlone (s : Membership) : Prop where
  /-- Its reply carries its own name. -/
  answered : ∀ a rest, s.registry = a :: rest → ∀ nodes, s.phase a = .answered nodes → nodes = [a]
  /-- It knows nobody. -/
  knows : ∀ a rest, s.registry = a :: rest → ∀ b, ¬ s.knows a b
  /-- It has joined before any other node registers. -/
  joined : ∀ a rest, s.registry = a :: rest → rest ≠ [] → ∃ nodes, s.phase a = .joined nodes

/-- The first node stays alone if no node registers before the ones before it have joined: it never
learns a name from its reply, so it never subscribes, and no name is sent to it. -/
theorem FirstAlone.step (hs : s.Sound) (hf : s.FirstAlone) (h : s.Step s')
    (hturn : s'.registry ≠ s.registry → ∀ b ∈ s.registry, ∃ nodes, s.phase b = .joined nodes) :
    s'.FirstAlone := by
  cases h with
  | silent => exact hf
  | register a h =>
    have hjoined : ∀ b ∈ s.registry, ∃ nodes, s.phase b = .joined nodes := hturn (by simp)
    -- The first of the registry is the new node, or the one that it was.
    have hfirst : ∀ b rest, s.registry ++ [a] = b :: rest → s.registry = [] ∧ b = a ∧ rest = [] ∨
        b ≠ a ∧ ∃ rest', s.registry = b :: rest' := by
      intro b rest hb
      cases hregistry : s.registry with
      | nil => simp_all
      | cons c cs =>
        obtain ⟨rfl, -⟩ : c = b ∧ cs ++ [a] = rest := by simpa [hregistry] using hb
        refine .inr ⟨?_, cs, rfl⟩
        rintro rfl
        exact (hs.idle c).mp h (hregistry ▸ List.mem_cons_self)
    constructor
    · intro b rest hb nodes hphase
      rcases hfirst b rest hb with ⟨-, rfl, -⟩ | ⟨hba, rest', hb⟩
      · simp at hphase
      · exact hf.answered b rest' hb nodes (by simpa [hba] using hphase)
    · intro b rest hb y hy
      rcases hfirst b rest hb with ⟨-, rfl, -⟩ | ⟨-, rest', hb⟩
      · obtain ⟨nodes, hnodes⟩ := hs.joined b y hy
        simp [h] at hnodes
      · exact hf.knows b rest' hb y hy
    · -- A second node registers only after the first has joined.
      intro b rest hb hrest
      rcases hfirst b rest hb with ⟨-, -, hnil⟩ | ⟨hba, rest', hb⟩
      · exact absurd hnil hrest
      · exact joined_update (hjoined b (hb ▸ List.mem_cons_self)) (by simp [h])
  | answer a h =>
    constructor
    · intro b rest hb nodes hphase
      by_cases hba : b = a
      · subst hba
        obtain rfl : s.registry = nodes := by simpa using hphase
        -- The first node asks before any other has registered.
        have hrest : rest = [] := by
          by_contra hrest
          obtain ⟨nodes, hnodes⟩ := hf.joined b rest hb hrest
          simp [h] at hnodes
        rw [hb, hrest]
      · exact hf.answered b rest hb nodes (by simpa [hba] using hphase)
    · exact hf.knows
    · exact fun b rest hb hrest => joined_update (hf.joined b rest hb hrest) (by simp [h])
  | takeOver a nodes h =>
    constructor
    · intro b rest hb nodes' hphase
      have hba : b ≠ a := by
        rintro rfl
        simp at hphase
      exact hf.answered b rest hb nodes' (by simpa [hba] using hphase)
    · rintro b rest hb y (hy | ⟨rfl, hy, hne⟩)
      · exact hf.knows b rest hb y hy
      · -- Its reply carries its own name only.
        rw [hf.answered b rest hb nodes h] at hy
        exact hne (List.mem_singleton.mp hy)
    · exact fun b rest hb hrest => joined_update (hf.joined b rest hb hrest) (by simp [h])
  | subscribe a x h => exact ⟨hf.answered, hf.knows, hf.joined⟩
  | announce b x => exact ⟨hf.answered, hf.knows, hf.joined⟩
  | deliver a x b h inFlight hold hkeep =>
    refine ⟨hf.answered, ?_, hf.joined⟩
    rintro a' rest ha' y (hy | ⟨rfl, -, -⟩)
    · exact hf.knows a' rest ha' y hy
    · exact hf.knows a' rest ha' x (hs.knows_of_inFlight h)

end Membership

end MosqCluster
