import MosqCluster.Cluster.Convergence

/-!
# The client ids of the monitors

A monitor connects under a client id that is made from the name of the peer and nothing else. All
nodes that have a monitor for the same peer therefore come to its broker under the same id, and a
broker closes the older one of two sessions with one id.

## Main definitions

* `Cluster.UniqueClientIds`: the monitors of different nodes differ in their ids at every broker.

## Main results

* `uniqueClientIds_iff`: the ids differ if and only if no two nodes have a monitor for one peer;
* `not_uniqueClientIds_of_three`: in a quiescent cluster whose lists are complete, three nodes are
  enough for a collision.
-/

namespace MosqCluster

variable {md5 : Bytes → Vector UInt8 16} {apiJoin : Bytes → Bytes}

namespace Cluster

/-- The monitors that two nodes have for the same peer come to its broker under different client
ids. -/
def UniqueClientIds (c : Cluster) : Prop :=
  ∀ b a a', a ≠ a' → ∀ m ∈ (c.context a).clusterNodes, ∀ m' ∈ (c.context a').clusterNodes,
    m.name = b → m'.name = b → m.clientId ≠ m'.clientId

/-- No two nodes have a monitor for the same peer. -/
def UnsharedPeers (c : Cluster) : Prop :=
  ∀ b a a', a ≠ a' → b ∈ (c.context a).names → b ∉ (c.context a').names

end Cluster

/-- In every reachable state, the client ids at every broker are different if and only if no two
nodes have a monitor for the same peer: the id of a monitor is a function of the name of the
peer. -/
theorem uniqueClientIds_iff {c : Cluster} (h : (cluster md5 apiJoin).Reachable c) :
    c.UniqueClientIds ↔ c.UnsharedPeers := by
  have hc := Cluster.wellFormed_of_reachable h
  constructor
  · intro hunique b a a' haa' hb hb'
    obtain ⟨m, hm, hname⟩ := List.mem_map.mp hb
    obtain ⟨m', hm', hname'⟩ := List.mem_map.mp hb'
    apply hunique b a a' haa' m hm m' hm' hname hname'
    rw [(hc.monitors a m hm).clientId, (hc.monitors a' m' hm').clientId, hname, hname']
  · rintro hunshared b a a' haa' m hm m' hm' rfl hname' -
    exact hunshared m.name a a' haa' (List.mem_map_of_mem hm) (hname' ▸ List.mem_map_of_mem hm')

/-- Two nodes that join one after the other share no peer. -/
theorem uniqueClientIds_iff_two_nodes :
    ∃ c, (cluster md5Abc joinUrl).exec (.start joinUrl) (joinInTurn [bytes "a", bytes "b"]) =
        some c ∧ (c.context (bytes "b")).names = [bytes "a"] ∧
      (c.UniqueClientIds ↔ c.UnsharedPeers) := by
  obtain ⟨c, hexec, hnames⟩ : ∃ c, (cluster md5Abc joinUrl).exec (.start joinUrl)
      (joinInTurn [bytes "a", bytes "b"]) = some c ∧
      decide ((c.context (bytes "b")).names = [bytes "a"]) :=
    Option.any_eq_true _ _ |>.mp (by decide)
  exact ⟨c, hexec, of_decide_eq_true hnames,
    uniqueClientIds_iff (TransitionSystem.reachable_of_exec hexec)⟩

/-- The second and the third of three nodes come to the broker of the first one under one id. -/
theorem not_uniqueClientIds_three_nodes :
    ¬ ∀ c, (cluster md5Abc joinUrl).Reachable c → c.UniqueClientIds := by
  intro hunique
  obtain ⟨c, hexec, hend⟩ : ∃ c, (cluster md5Abc joinUrl).exec (.start joinUrl)
      (joinInTurn [bytes "a", bytes "b", bytes "c"]) = some c ∧
      decide (Monitor.start md5Abc (bytes "a") ∈ (c.context (bytes "b")).clusterNodes ∧
        Monitor.start md5Abc (bytes "a") ∈ (c.context (bytes "c")).clusterNodes) :=
    Option.any_eq_true _ _ |>.mp (by decide)
  obtain ⟨hb, hc⟩ := of_decide_eq_true hend
  exact hunique c (TransitionSystem.reachable_of_exec hexec) (bytes "a") (bytes "b") (bytes "c")
    (by decide) _ hb _ hc rfl rfl rfl

/-- Where three nodes have joined and their lists are complete, two of them collide at the broker of
the third one. -/
theorem not_uniqueClientIds_of_three {c : Cluster} (h : (cluster md5 apiJoin).Reachable c)
    (hconverged : c.Converged) {a a' b : Bytes} (ha : c.Joined a) (ha' : c.Joined a')
    (hb : c.Joined b) (haa' : a ≠ a') (hab : a ≠ b) (hab' : a' ≠ b) : ¬ c.UniqueClientIds := by
  rw [uniqueClientIds_iff h]
  exact fun hunshared =>
    hunshared b a a' haa' (hconverged a b ha hb hab) (hconverged a' b ha' hb hab')

end MosqCluster
