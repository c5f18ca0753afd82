import MosqCluster.Cluster.Convergence

/-!
# Pairs of nodes

The names of a reply are those that were registered first, up to the node that asks. So a node that
has joined knows all that were registered before it, whatever the brokers do meanwhile, and of any
two nodes that have joined at least one passes its publishes on to the other.

## Main definitions

* `Membership.Ordered`: the replies and the registry.

## Main results

* `Membership.Ordered.step` and `Membership.Ordered.knows`: what a step keeps, and what follows;
* `knows_registered_before`: of two nodes that have joined, the later one knows the earlier one.
-/

namespace MosqCluster

namespace Membership

variable {s s' : Membership} {a b : Bytes} {nodes : List Bytes}

/-- The replies and the registry. -/
structure Ordered (s : Membership) : Prop where
  /-- A reply has the names that were registered first, and among them the one of its node. -/
  answered : ∀ a nodes, s.phase a = .answered nodes ∨ s.phase a = .joined nodes →
    nodes <+: s.registry ∧ a ∈ nodes
  /-- A node that has joined knows the other names of its reply. -/
  joined : ∀ a nodes, s.phase a = .joined nodes → ∀ b ∈ nodes, b ≠ a → s.knows a b

/-- A registration comes behind the names of the replies. -/
theorem Ordered.register (ho : s.Ordered) :
    Ordered { s with
      phase := Function.update s.phase a .registered
      registry := s.registry ++ [a]
      history := s.history ++ [.registered a] } := by
  constructor
  · intro b nodes hb
    by_cases hba : b = a
    · subst hba
      simp at hb
    · obtain ⟨hpre, hmem⟩ := ho.answered b nodes (by simpa [hba] using hb)
      exact ⟨hpre.trans (List.prefix_append _ _), hmem⟩
  · intro b nodes hb
    by_cases hba : b = a
    · subst hba
      simp at hb
    · exact ho.joined b nodes (by simpa [hba] using hb)

/-- A reply has all names, and its node is among them. -/
theorem Ordered.answer (ho : s.Ordered) (ha : a ∈ s.registry) :
    Ordered { s with
      phase := Function.update s.phase a (.answered s.registry)
      history := s.history ++ [.answered a] } := by
  constructor
  · intro b nodes hb
    by_cases hba : b = a
    · subst hba
      obtain rfl : s.registry = nodes := by simpa using hb
      exact ⟨List.prefix_rfl, ha⟩
    · exact ho.answered b nodes (by simpa [hba] using hb)
  · intro b nodes hb
    by_cases hba : b = a
    · subst hba
      simp at hb
    · exact ho.joined b nodes (by simpa [hba] using hb)

/-- The names of a reply are taken over. -/
theorem Ordered.takeOver (ho : s.Ordered) (h : s.phase a = .answered nodes) :
    Ordered { s with
      phase := Function.update s.phase a (.joined nodes)
      knows := fun b y => s.knows b y ∨ b = a ∧ y ∈ nodes ∧ y ≠ a } := by
  constructor
  · intro b names hb
    by_cases hba : b = a
    · subst hba
      obtain rfl : nodes = names := by simpa using hb
      exact ho.answered b nodes (.inl h)
    · exact ho.answered b names (by simpa [hba] using hb)
  · intro b names hb y hy hne
    by_cases hba : b = a
    · subst hba
      obtain rfl : nodes = names := by simpa using hb
      exact .inr ⟨rfl, hy, hne⟩
    · exact .inl (ho.joined b names (by simpa [hba] using hb) y hy hne)

/-- What a node comes to know it does not forget. -/
theorem Ordered.mono (ho : s.Ordered) (hphase : s'.phase = s.phase)
    (hregistry : s'.registry = s.registry) (hknows : ∀ a b, s.knows a b → s'.knows a b) :
    s'.Ordered where
  answered a nodes h := by
    rw [hregistry]
    exact ho.answered a nodes (hphase ▸ h)
  joined a nodes h b hb hne := hknows a b (ho.joined a nodes (hphase ▸ h) b hb hne)

/-- Every step keeps the order. -/
theorem Ordered.step (ho : s.Ordered) (hs : s.Sound) (h : s.Step s') : s'.Ordered := by
  cases h with
  | silent => exact ho
  | register a h => exact ho.register
  | answer a h =>
    refine ho.answer ?_
    by_contra hmem
    rw [(hs.idle a).mpr hmem] at h
    cases h
  | takeOver a nodes h => exact ho.takeOver h
  | subscribe a x h => exact ho.mono rfl rfl fun _ _ hknows => hknows
  | announce b x => exact ho.mono rfl rfl fun _ _ hknows => hknows
  | deliver a x b h inFlight hold hkeep => exact ho.mono rfl rfl fun _ _ hknows => .inl hknows

/-- A node that has joined knows those that were registered before it. -/
theorem Ordered.knows (ho : s.Ordered) (hs : s.Sound) (hbefore : [a, b].Sublist s.registry)
    (hb : ∃ nodes, s.phase b = .joined nodes) : s.knows b a := by
  obtain ⟨nodes, hphase⟩ := hb
  obtain ⟨⟨rest, hregistry⟩, hmem⟩ := ho.answered b nodes (.inr hphase)
  have hnodup : (nodes ++ rest).Nodup := hregistry ▸ hs.nodup
  have hlate : b ∉ rest := fun hrest => (List.disjoint_of_nodup_append hnodup) hmem hrest
  have hne : a ≠ b := by
    rintro rfl
    exact absurd (hs.nodup.sublist hbefore) (by simp)
  refine ho.joined b nodes hphase a ?_ hne
  rw [← hregistry] at hbefore
  obtain ⟨first, last, hsplit, hfirst, hlast⟩ := List.sublist_append_iff.mp hbefore
  cases first with
  | nil =>
    obtain rfl : [a, b] = last := hsplit
    exact absurd (hlast.subset (by simp)) hlate
  | cons c first =>
    obtain rfl : a = c := (List.cons.inj hsplit).1
    exact hfirst.subset List.mem_cons_self

end Membership

namespace Cluster

variable {md5 : Bytes → Vector UInt8 16} {apiJoin : Bytes → Bytes} {c : Cluster}

/-- In every reachable state the replies are in order. -/
theorem ordered_of_reachable (h : (cluster md5 apiJoin).Reachable c) : c.membership.Ordered := by
  have hinvariant : c.WellFormed md5 apiJoin ∧ c.membership.Sound ∧ c.membership.Ordered := by
    refine TransitionSystem.Reachable.invariant (T := cluster md5 apiJoin)
      (P := fun c => c.WellFormed md5 apiJoin ∧ c.membership.Sound ∧ c.membership.Ordered)
      ⟨wellFormed_of_reachable .refl, sound_of_reachable .refl, ?_⟩ ?_ h
    · constructor <;> simp [cluster, start, membership]
    · rintro c l c' ⟨hwell, hs, ho⟩ hnext
      have hstep := membership_step hwell hnext
      exact ⟨hwell.step hnext, hs.step hstep, ho.step hs hstep⟩
  exact hinvariant.2.2

end Cluster

/-- In every reachable state, a node that has joined has all nodes in its list that were registered
before it. So of any two nodes that have joined, one has the other in its list. -/
theorem knows_registered_before {md5 : Bytes → Vector UInt8 16} {apiJoin : Bytes → Bytes}
    {c : Cluster} (h : (cluster md5 apiJoin).Reachable c) :
    (∀ a b, [a, b].Sublist c.registry → c.Joined b → a ∈ (c.context b).names) ∧
      ∀ a b, c.Joined a → c.Joined b → a ≠ b →
        a ∈ (c.context b).names ∨ b ∈ (c.context a).names := by
  have hs := Cluster.sound_of_reachable h
  have hbefore : ∀ a b, [a, b].Sublist c.registry → c.Joined b → a ∈ (c.context b).names :=
    fun a b hsub hb => (Cluster.ordered_of_reachable h).knows hs hsub hb
  have hregistered : ∀ a, c.Joined a → a ∈ c.registry := by
    rintro a ⟨nodes, hphase⟩
    by_contra hmem
    have hidle : c.phase a = .idle := (hs.idle a).mpr hmem
    rw [hidle] at hphase
    cases hphase
  refine ⟨hbefore, fun a b ha hb hab => ?_⟩
  -- one of the two names was registered before the other one
  obtain ⟨first, rest, hregistry⟩ := List.append_of_mem (hregistered a ha)
  have hmem := hregistered b hb
  rw [hregistry, List.mem_append, List.mem_cons] at hmem
  rcases hmem with hmem | rfl | hmem
  · refine .inr (hbefore b a ?_ ha)
    rw [hregistry]
    exact (List.singleton_sublist.mpr hmem).append (List.singleton_sublist.mpr List.mem_cons_self)
  · exact absurd rfl hab
  · refine .inl (hbefore a b ?_ hb)
    rw [hregistry]
    exact ((List.singleton_sublist.mpr hmem).cons_cons a).trans (List.sublist_append_right _ _)

/-- Two nodes whose joins overlap, and a third one that comes later. -/
theorem knows_registered_before_three_nodes :
    ∃ c, (cluster md5Abc joinUrl).exec (.start joinUrl)
        (joinTogether ++ joinInTurn [bytes "c"]) = some c ∧
      bytes "a" ∈ (c.context (bytes "c")).names ∧ bytes "b" ∈ (c.context (bytes "c")).names := by
  obtain ⟨c, hexec, hend⟩ : ∃ c, (cluster md5Abc joinUrl).exec (.start joinUrl)
      (joinTogether ++ joinInTurn [bytes "c"]) = some c ∧
      decide (c.registry = [bytes "a", bytes "b", bytes "c"] ∧ c.Joined (bytes "c")) :=
    Option.any_eq_true _ _ |>.mp (by decide)
  obtain ⟨hregistry, hjoined⟩ := of_decide_eq_true hend
  obtain ⟨hbefore, -⟩ := knows_registered_before (TransitionSystem.reachable_of_exec hexec)
  refine ⟨c, hexec, hbefore _ _ ?_ hjoined, hbefore _ _ ?_ hjoined⟩
  · rw [hregistry]
    decide
  · rw [hregistry]
    decide

end MosqCluster
