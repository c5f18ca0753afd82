import MosqCluster.Cluster.Pairs
import MosqCluster.Cluster.ProxyPass
import Mathlib

/-!
# The cluster comes to rest

What happens after a while without new nodes and without publishes of ordinary clients. A monitor
connects once, as no connection is lost, and its two commands become two packets. The name in one of
them is sent to the monitors that are subscribed on the broker, at most one for each node, and a
name that arrives starts at most one monitor. There are finitely many names, so that there is a last
step.

## Main definitions

* `ClusterLabel.Internal` and `settling`: the steps in question, and the system that takes them;
* `Cluster.Within`: all names in use are in a finite set;
* `Cluster.load`: how much is still to be done.

## Main results

* `Cluster.Within.step` and `Cluster.load_lt`: a step needs no other names, and less is to be done;
* `comes_to_rest`: after boundedly many steps nothing is left to do, and then all registered nodes
  have joined.
-/

namespace MosqCluster

open Finset

/-- A step of the nodes, the brokers and the service, without a new node and a new publish. -/
def ClusterLabel.Internal : ClusterLabel → Prop
  | .register _ | .clientPublish .. => False
  | _ => True

instance : (l : ClusterLabel) → Decidable l.Internal
  | .register _ | .clientPublish .. => .isFalse id
  | .answer _ | .takeOver _ | .connect .. | .run .. | .receive .. | .deliver .. => .isTrue trivial

/-- The cluster that is left to itself. -/
def settling (md5 : Bytes → Vector UInt8 16) (apiJoin : Bytes → Bytes) :
    TransitionSystem Cluster ClusterLabel :=
  (cluster md5 apiJoin).restrict fun _ l => l.Internal

variable {md5 : Bytes → Vector UInt8 16} {apiJoin : Bytes → Bytes} {U : Finset Bytes} {n : Nat}

/-! ## The names in use -/

/-- The payload of a command. -/
def MosqCommand.payload? : MosqCommand → Option Bytes
  | .publish _ _ payload _ _ => some payload
  | _ => none

/-- The names that a monitor has to do with. -/
def Monitor.mentions (m : Monitor) : List Bytes :=
  m.name :: ((m.commands ++ m.uplink).filterMap fun q => q.command.payload?) ++
    m.inbox.map Message.payload

/-- The names of a monitor are in a set. -/
structure Monitor.Within (U : Finset Bytes) (m : Monitor) : Prop where
  name : m.name ∈ U
  commands : ∀ q ∈ m.commands, ∀ payload ∈ q.command.payload?, payload ∈ U
  uplink : ∀ q ∈ m.uplink, ∀ payload ∈ q.command.payload?, payload ∈ U
  inbox : ∀ message ∈ m.inbox, message.payload ∈ U

theorem Monitor.within_iff {m : Monitor} : m.Within U ↔ ∀ b ∈ m.mentions, b ∈ U := by
  simp only [mentions, List.mem_append, List.mem_cons, List.mem_filterMap, List.mem_map]
  constructor
  · rintro ⟨hname, hcommands, huplink, hinbox⟩ b
      ((rfl | ⟨q, hq | hq, hb⟩) | ⟨message, hmessage, rfl⟩)
    · exact hname
    · exact hcommands q hq b hb
    · exact huplink q hq b hb
    · exact hinbox message hmessage
  · intro h
    exact ⟨h _ (.inl (.inl rfl)), fun q hq b hb => h b (.inl (.inr ⟨q, .inl hq, hb⟩)),
      fun q hq b hb => h b (.inl (.inr ⟨q, .inr hq, hb⟩)),
      fun message hmessage => h _ (.inr ⟨message, hmessage, rfl⟩)⟩

theorem Monitor.within_start {name : Bytes} (h : name ∈ U) : (Monitor.start md5 name).Within U :=
  Monitor.within_iff.mpr fun b hb => by simp_all [mentions, start]

/-- The names of a cluster are in a set. -/
structure Cluster.Within (U : Finset Bytes) (c : Cluster) : Prop where
  registry : ∀ a ∈ c.registry, a ∈ U
  monitors : ∀ a, ∀ m ∈ (c.context a).clusterNodes, m.Within U

namespace Cluster

variable {c c' : Cluster} {l : ClusterLabel} {a x : Bytes}

/-- Only registered nodes have monitors. -/
theorem mem_registry_of_mem (h : (cluster md5 apiJoin).Reachable c) {m : Monitor}
    (hm : m ∈ (c.context a).clusterNodes) : a ∈ c.registry := by
  have hs := sound_of_reachable h
  obtain ⟨nodes, hjoined⟩ := hs.joined a m.name (List.mem_map_of_mem hm)
  by_contra hmem
  have hidle : c.phase a = .idle := (hs.idle a).mpr hmem
  exact absurd (hidle.symm.trans hjoined) (by simp)

/-- There are finitely many names. -/
theorem exists_within (h : (cluster md5 apiJoin).Reachable c) : ∃ U, c.Within U := by
  refine ⟨(c.registry ++ c.registry.flatMap fun a =>
    (c.context a).clusterNodes.flatMap Monitor.mentions).toFinset, fun a ha => ?_, fun a m hm => ?_⟩
  · exact List.mem_toFinset.mpr (List.mem_append_left _ ha)
  · refine Monitor.within_iff.mpr fun b hb => List.mem_toFinset.mpr (List.mem_append_right _ ?_)
    exact List.mem_flatMap.mpr ⟨a, mem_registry_of_mem h hm, List.mem_flatMap.mpr ⟨m, hm, hb⟩⟩

end Cluster

/-! ## Changes of one monitor -/

/-- A monitor of the node `nodeName` that has connected. -/
def Monitor.afterConnect (m : Monitor) (nodeName : Bytes) : Monitor :=
  let commands : List Tagged := [⟨none, .subscribe (m.commandId + 1).toInt32 monitorTopic 1⟩,
    ⟨none, .publish (m.commandId + 1 + 1).toInt32 monitorTopic nodeName 1 false⟩]
  { m with
    connected := true
    commandId := m.commandId + 1 + 1
    commands := m.commands ++ commands
    pushed := m.pushed ++ commands }

theorem Monitor.onConnect_eq {nodeName : Bytes} (h : nodeName.length < 2 ^ 31 - 1) (m : Monitor) :
    m.onConnect nodeName = some (m.afterConnect nodeName) := by
  have htopic : cString monitorTopic = monitorTopic := by decide
  rw [onConnect, request, Request.command, Option.map_some, Option.bind_some, request,
    Request.command, xstring_length h, htopic]
  simp [afterConnect]

theorem Monitor.Within.afterConnect {m : Monitor} {nodeName : Bytes} (hm : m.Within U)
    (h : nodeName ∈ U) : (m.afterConnect nodeName).Within U := by
  refine { hm with commands := fun q hq payload hpayload => ?_ }
  rcases List.mem_append.mp hq with hq | hq
  · exact hm.commands q hq payload hpayload
  · simp only [List.mem_cons, List.not_mem_nil, or_false] at hq
    rcases hq with rfl | rfl
    · cases hpayload
    · exact (Option.some.inj hpayload) ▸ h

/-! ## Changes of one plugin -/

namespace ClusterPluginContext

variable {ctx : ClusterPluginContext} {x u name : Bytes} {f : Monitor → Monitor} {m : Monitor}

theorem mem_of_monitor? (h : ctx.monitor? x = some m) : m ∈ ctx.clusterNodes ∧ m.name = x :=
  ⟨List.mem_of_find?_eq_some h, by simpa using List.find?_some h⟩

theorem within_modify (hctx : ∀ m ∈ ctx.clusterNodes, m.Within U)
    (hf : ∀ m ∈ ctx.clusterNodes, m.name = x → m.Within U → (f m).Within U) :
    ∀ m ∈ (ctx.modify x f).clusterNodes, m.Within U := by
  intro m' hm'
  obtain ⟨m, hm, rfl⟩ := List.mem_map.mp hm'
  split
  · next hname => exact hf m hm hname (hctx m hm)
  · exact hctx m hm

theorem within_maintainProxyInstance (hname : name ∈ U)
    (hctx : ∀ m ∈ ctx.clusterNodes, m.Within U) :
    ∀ m ∈ (ctx.maintainProxyInstance md5 name).clusterNodes, m.Within U := by
  unfold maintainProxyInstance
  split
  · exact hctx
  · intro m hm
    rcases List.mem_append.mp hm with hm | hm
    · exact hctx m hm
    · obtain rfl := List.mem_singleton.mp hm
      exact Monitor.within_start hname

theorem within_maintainProxyInstances {nodes : List Bytes} (hnodes : ∀ name ∈ nodes, name ∈ U)
    (hctx : ∀ m ∈ ctx.clusterNodes, m.Within U) :
    ∀ m ∈ (ctx.maintainProxyInstances md5 nodes).clusterNodes, m.Within U := by
  unfold maintainProxyInstances
  induction nodes generalizing ctx with
  | nil => exact hctx
  | cons name nodes ih =>
    have hrest : ∀ x ∈ nodes, x ∈ U := fun x hx => hnodes x (List.mem_cons_of_mem _ hx)
    rw [List.foldl_cons]
    split
    · exact ih hrest hctx
    · exact ih hrest (within_maintainProxyInstance (hnodes name List.mem_cons_self) hctx)

theorem within_onMessage {message : Message} (hpayload : message.payload ∈ U)
    (hctx : ∀ m ∈ ctx.clusterNodes, m.Within U) :
    ∀ m ∈ (ctx.onMessage md5 message).clusterNodes, m.Within U := by
  unfold onMessage
  split_ifs
  · exact within_maintainProxyInstance hpayload hctx
  · exact hctx
  · exact hctx

end ClusterPluginContext

/-! ## What is still to be done -/

/-- How many steps a monitor of a cluster of `n` names gives rise to. -/
def Monitor.load (n : Nat) (m : Monitor) : Nat :=
  (if m.connected then 0 else 2 * (n + 2) + 1) + m.commands.length * (n + 2) +
    m.uplink.length * (n + 1) + m.inbox.length

/-- A monitor that is not there yet counts as if it had just been started. -/
def ClusterPluginContext.load (n : Nat) (ctx : ClusterPluginContext) (u : Bytes) : Nat :=
  ((ctx.monitor? u).map (Monitor.load n)).getD (2 * (n + 2) + 1)

/-- How many steps a join takes. -/
def JoinPhase.load : JoinPhase → Nat
  | .registered => 2
  | .answered _ => 1
  | _ => 0

/-- How many steps a cluster takes at most. -/
def Cluster.load (U : Finset Bytes) (c : Cluster) : Nat :=
  ∑ p ∈ U ×ˢ U, (c.context p.1).load #U p.2 + ∑ a ∈ U, (c.phase a).load

namespace ClusterPluginContext

variable {ctx : ClusterPluginContext} {x u name : Bytes} {f : Monitor → Monitor} {m : Monitor}

theorem monitor?_modify (hf : ∀ m, m.name = x → (f m).name = x) (u : Bytes) :
    (ctx.modify x f).monitor? u = (ctx.monitor? u).map fun m => if m.name = x then f m else m := by
  have hname : ∀ m : Monitor, (if m.name = x then f m else m).name = m.name := by
    intro m
    split
    · next hm => rw [hf m hm, hm]
    · rfl
  rw [monitor?, monitor?, modify, List.find?_map]
  simp only [Function.comp_def, hname]

theorem load_modify_self (hf : ∀ m, m.name = x → (f m).name = x) (hm : ctx.monitor? x = some m) :
    (ctx.modify x f).load n x = (f m).load n := by
  rw [load, monitor?_modify hf, hm, Option.map_some, if_pos (mem_of_monitor? hm).2]
  rfl

theorem load_modify_other (hf : ∀ m, m.name = x → (f m).name = x) (h : u ≠ x) :
    (ctx.modify x f).load n u = ctx.load n u := by
  rw [load, monitor?_modify hf, load]
  cases hm : ctx.monitor? u with
  | none => rfl
  | some m =>
    have hname : m.name ≠ x := fun hx => h ((mem_of_monitor? hm).2.symm.trans hx)
    rw [Option.map_some, if_neg hname]

/-- A monitor that is started adds nothing. -/
theorem load_maintainProxyInstance (name u : Bytes) :
    (ctx.maintainProxyInstance md5 name).load n u = ctx.load n u := by
  unfold maintainProxyInstance
  split
  · rfl
  · next hnone =>
    rw [load, load, monitor?, monitor?, List.find?_append]
    cases hm : ctx.clusterNodes.find? (·.name = u) with
    | some m => rfl
    | none =>
      by_cases hu : name = u
      · subst hu
        simp [Monitor.start, Monitor.load]
      · simp [Monitor.start, hu]

theorem load_maintainProxyInstances (nodes : List Bytes) (u : Bytes) :
    (ctx.maintainProxyInstances md5 nodes).load n u = ctx.load n u := by
  unfold maintainProxyInstances
  induction nodes generalizing ctx with
  | nil => rfl
  | cons name nodes ih =>
    rw [List.foldl_cons]
    split
    · exact ih
    · exact ih.trans (load_maintainProxyInstance name u)

theorem load_onMessage (message : Message) (u : Bytes) :
    (ctx.onMessage md5 message).load n u = ctx.load n u := by
  unfold onMessage
  split_ifs
  · exact load_maintainProxyInstance _ u
  · rfl
  · rfl

end ClusterPluginContext

/-! ## Changes of the cluster -/

namespace Cluster

variable {c c' : Cluster} {l : ClusterLabel} {a x : Bytes} {f : Monitor → Monitor} {m : Monitor}
  {k : Nat}

theorem Within.mem_of_monitor? (hc : c.Within U) (hm : (c.context a).monitor? x = some m) :
    x ∈ U := by
  obtain ⟨hmem, rfl⟩ := ClusterPluginContext.mem_of_monitor? hm
  exact (hc.monitors a m hmem).name

theorem Within.update {ctx : ClusterPluginContext} (hc : c.Within U)
    (hctx : ∀ m ∈ ctx.clusterNodes, m.Within U) : (c.update a ctx).Within U := by
  refine ⟨hc.registry, fun b m hm => ?_⟩
  rw [update_context] at hm
  split at hm
  · exact hctx m hm
  · exact hc.monitors b m hm

theorem Within.modify (hc : c.Within U)
    (hf : ∀ m ∈ (c.context a).clusterNodes, m.name = x → m.Within U → (f m).Within U) :
    (c.modify a x f).Within U :=
  hc.update (ClusterPluginContext.within_modify (hc.monitors a) hf)

theorem Within.broadcast {message : Message} (hc : c.Within U) (hpayload : message.payload ∈ U) :
    (c.broadcast x message).Within U := by
  refine ⟨hc.registry, fun b => ClusterPluginContext.within_modify (hc.monitors b) ?_⟩
  intro m _ _ hm
  split
  · refine { hm with inbox := fun message' hmessage => ?_ }
    rcases List.mem_append.mp hmessage with hmessage | hmessage
    · exact hm.inbox message' hmessage
    · exact List.mem_singleton.mp hmessage ▸ hpayload
  · exact hm

/-- Where one monitor has less to do, and no other one has more. -/
theorem load_add_le (ha : a ∈ U) (hx : x ∈ U) (hphase : c'.phase = c.phase)
    (hself : (c'.context a).load #U x + k ≤ (c.context a).load #U x)
    (hother : ∀ p : Bytes × Bytes, p ≠ (a, x) →
      (c'.context p.1).load #U p.2 ≤ (c.context p.1).load #U p.2) :
    c'.load U + k ≤ c.load U := by
  have hmem : (a, x) ∈ U ×ˢ U := mem_product.mpr ⟨ha, hx⟩
  have hrest : ∑ p ∈ (U ×ˢ U).erase (a, x), (c'.context p.1).load #U p.2 ≤
      ∑ p ∈ (U ×ˢ U).erase (a, x), (c.context p.1).load #U p.2 :=
    sum_le_sum fun p hp => hother p (ne_of_mem_erase hp)
  unfold load
  rw [hphase, ← add_sum_erase _ _ hmem, ← add_sum_erase _ _ hmem]
  dsimp only
  omega

/-- One monitor has less to do. -/
theorem load_modify (hc : c.Within U) (ha : a ∈ U) (hm : (c.context a).monitor? x = some m)
    (hname : ∀ m, m.name = x → (f m).name = x) (hload : (f m).load #U + k ≤ m.load #U) :
    (c.modify a x f).load U + k ≤ c.load U := by
  refine load_add_le ha (hc.mem_of_monitor? hm) rfl ?_ fun p hp => ?_
  · rw [modify_context, if_pos rfl, ClusterPluginContext.load_modify_self hname hm]
    have hself : (c.context a).load #U x = m.load #U := by
      rw [ClusterPluginContext.load, hm]
      rfl
    rwa [hself]
  · rw [modify_context]
    split
    · next hpa =>
      have hpx : p.2 ≠ x := fun hpx => hp (Prod.ext hpa hpx)
      rw [hpa, ClusterPluginContext.load_modify_other hname hpx]
    · exact Nat.le_refl _

/-- A message is sent to at most one monitor of each node. -/
theorem load_broadcast (x : Bytes) (message : Message) :
    (c.broadcast x message).load U ≤ c.load U + #U := by
  have hone : ∀ p : Bytes × Bytes, ((c.broadcast x message).context p.1).load #U p.2 ≤
      (c.context p.1).load #U p.2 + if p.2 = x then 1 else 0 := by
    intro p
    show ((c.context p.1).modify x _).load #U p.2 ≤ _
    have hname : ∀ m : Monitor, m.name = x → (if message.topic ∈ m.subscriptions then
        { m with inbox := m.inbox ++ [message] } else m).name = x := by
      intro m hm
      split <;> exact hm
    split
    · next hx =>
      rw [hx]
      cases hm : (c.context p.1).monitor? x with
      | none =>
        rw [ClusterPluginContext.load, ClusterPluginContext.load,
          ClusterPluginContext.monitor?_modify hname, hm]
        exact Nat.le_succ _
      | some m =>
        rw [ClusterPluginContext.load_modify_self hname hm, ClusterPluginContext.load, hm,
          Option.map_some, Option.getD_some]
        split
        · rw [Monitor.load, Monitor.load, List.length_append, List.length_singleton]
          dsimp only
          omega
        · exact Nat.le_succ _
    · next hx =>
      rw [ClusterPluginContext.load_modify_other hname hx]
      exact Nat.le_refl _
  have hcount : ∑ p ∈ U ×ˢ U, (if p.2 = x then 1 else 0) ≤ #U := by
    rw [sum_product]
    refine (sum_le_card_nsmul U _ 1 fun b _ => ?_).trans (by simp)
    rw [sum_ite_eq' U x fun _ => 1]
    split <;> decide
  have hsum := sum_le_sum fun p (_ : p ∈ U ×ˢ U) => hone p
  rw [sum_add_distrib] at hsum
  unfold load
  have hphase : (c.broadcast x message).phase = c.phase := rfl
  rw [hphase]
  omega

theorem load_congr (hphase : c'.phase = c.phase)
    (hcontext : ∀ b u, (c'.context b).load #U u = (c.context b).load #U u) :
    c'.load U = c.load U := by
  unfold load
  rw [hphase]
  simp only [hcontext]

/-- A change of a monitor that gives it nothing to do. -/
theorem load_modify_of_eq (hname : ∀ m, (f m).name = m.name)
    (hload : ∀ m, (f m).load #U = m.load #U) : (c.modify a x f).load U = c.load U := by
  have hname' : ∀ m, m.name = x → (f m).name = x := fun m hm => (hname m).trans hm
  have hsame : Monitor.load (#U) ∘ (fun m => if m.name = x then f m else m) =
      Monitor.load (#U) := by
    funext m
    rw [Function.comp_apply]
    split
    · exact hload m
    · rfl
  refine load_congr rfl fun b u => ?_
  rw [modify_context]
  split
  · next hb =>
    rw [hb, ClusterPluginContext.load, ClusterPluginContext.monitor?_modify hname', Option.map_map,
      hsame, ClusterPluginContext.load]
  · rfl

/-- The joins take fewer steps. -/
theorem load_phase {phase : JoinPhase} (ha : a ∈ U) (hcontext : ∀ b u, (c'.context b).load #U u =
    (c.context b).load #U u) (hphase : c'.phase = Function.update c.phase a phase)
    (hlt : phase.load < (c.phase a).load) : c'.load U < c.load U := by
  have hrest : ∑ b ∈ U.erase a, (c'.phase b).load = ∑ b ∈ U.erase a, (c.phase b).load := by
    refine sum_congr rfl fun b hb => ?_
    rw [hphase, Function.update_of_ne (ne_of_mem_erase hb)]
  have hself : c'.phase a = phase := by rw [hphase, Function.update_self]
  unfold load
  rw [← add_sum_erase _ _ ha, ← add_sum_erase _ (fun b => (c.phase b).load) ha, hrest, hself]
  simp only [hcontext]
  omega

/-- What a node does with its packets, one by one. -/
theorem receivePublish_of_monitor {origin : Option Nat} {clientId topic payload : Bytes}
    {qos : Int32} {retain : Bool} (hclient : bytes "mosqcluster" <+: cString clientId) :
    c.receivePublish x origin clientId topic payload qos retain =
      some (c.broadcast x ⟨topic, payload⟩) := by
  have hpass : (c.context x).mosqProxyPass origin clientId topic payload
      (Int64.ofNat payload.length) qos retain = some (c.context x) := by
    unfold ClusterPluginContext.mosqProxyPass
    rw [if_pos hclient, ite_self]
  rw [receivePublish, hpass, Option.map_some, update, Function.update_eq_self]

/-- The broker takes every packet of a monitor. -/
theorem receivePacket_ne_none {packet : Tagged}
    (hclient : bytes "mosqcluster" <+: cString m.clientId) :
    c.receivePacket a x m packet ≠ none := by
  intro h
  unfold receivePacket at h
  cases hcommand : packet.command with
  | publish id topic payload qos retain =>
    simp only [hcommand, receivePublish_of_monitor hclient] at h
    cases h
  | subscribe id topic qos | unsubscribe id topic =>
    simp only [hcommand] at h
    cases h

/-- A packet is one message for each node at most. -/
theorem settle_receivePacket {packet : Tagged} (hc : c.Within U)
    (hclient : bytes "mosqcluster" <+: cString m.clientId)
    (hpacket : ∀ payload ∈ packet.command.payload?, payload ∈ U)
    (h : c.receivePacket a x m packet = some c') : c'.Within U ∧ c'.load U ≤ c.load U + #U := by
  unfold receivePacket at h
  cases hcommand : packet.command with
  | publish id topic payload qos retain =>
    have hpayload : payload ∈ U := hpacket payload (by rw [hcommand]; rfl)
    simp only [hcommand, receivePublish_of_monitor hclient] at h
    obtain rfl := Option.some.inj h
    exact ⟨hc.broadcast hpayload, load_broadcast x ⟨topic, payload⟩⟩
  | subscribe id topic qos =>
    have hsub : (c.modify a x fun m =>
        { m with subscriptions := m.subscriptions ++ [topic] }).Within U :=
      hc.modify fun m' _ _ hm' => { hm' with }
    have hload : (c.modify a x fun m =>
        { m with subscriptions := m.subscriptions ++ [topic] }).load U = c.load U :=
      load_modify_of_eq (fun _ => rfl) fun _ => rfl
    simp only [hcommand] at h
    obtain rfl := Option.some.inj h
    by_cases htopic : topic = monitorTopic
    · rw [if_pos htopic]
      exact ⟨⟨hsub.registry, hsub.monitors⟩, hload.le.trans (Nat.le_add_right _ _)⟩
    · rw [if_neg htopic]
      exact ⟨hsub, hload.le.trans (Nat.le_add_right _ _)⟩
  | unsubscribe id topic =>
    have hload : (c.modify a x fun m =>
        { m with subscriptions := m.subscriptions.filter (· ≠ topic) }).load U = c.load U :=
      load_modify_of_eq (fun _ => rfl) fun _ => rfl
    simp only [hcommand] at h
    obtain rfl := Option.some.inj h
    exact ⟨hc.modify fun m' _ _ hm' => { hm' with }, hload.le.trans (Nat.le_add_right _ _)⟩

/-- A step of the cluster that is left to itself needs no other names, and less is to be done
afterwards. -/
theorem settle_step (h : (cluster md5 apiJoin).Reachable c) (hc : c.Within U)
    (hshort : ∀ a ∈ c.registry, a.length < 2 ^ 31 - 1) (hl : l.Internal)
    (hnext : c.next md5 l = some c') : c'.Within U ∧ c'.load U < c.load U := by
  have hs := sound_of_reachable h
  have hregistered : ∀ a, c.phase a ≠ .idle → a ∈ c.registry := by
    intro a hphase
    by_contra hmem
    exact hphase ((hs.idle a).mpr hmem)
  have hnode : ∀ {a x m}, (c.context a).monitor? x = some m → a ∈ c.registry :=
    fun hm => mem_registry_of_mem h (ClusterPluginContext.mem_of_monitor? hm).1
  have hmonitor : ∀ {a x m}, (c.context a).monitor? x = some m → m.Within U ∧ m.name = x :=
    fun hm => ⟨hc.monitors _ _ (ClusterPluginContext.mem_of_monitor? hm).1,
      (ClusterPluginContext.mem_of_monitor? hm).2⟩
  cases l with
  | register a => exact absurd hl (by simp [ClusterLabel.Internal])
  | clientPublish => exact absurd hl (by simp [ClusterLabel.Internal])
  | answer a =>
    obtain ⟨hphase, hnext⟩ := Option.ite_none_right_eq_some.mp hnext
    obtain rfl := Option.some.inj hnext
    have ha := hc.registry a (hregistered a (by simp [hphase]))
    refine ⟨⟨hc.registry, hc.monitors⟩, load_phase ha (fun _ _ => rfl) rfl ?_⟩
    rw [hphase]
    exact Nat.one_lt_two
  | takeOver a =>
    obtain ⟨nodes, hphase, rfl⟩ := next_takeOver hnext
    have ha := hc.registry a (hregistered a (by simp [hphase]))
    have hnodes : ∀ name ∈ nodes, name ∈ U := fun name hname => hc.registry name
      (((ordered_of_reachable h).answered a nodes (.inl hphase)).1.subset hname)
    have hmonitors := @ClusterPluginContext.within_maintainProxyInstances md5 U _ _ hnodes
      (hc.monitors a)
    have hupdate := hc.update (a := a) hmonitors
    refine ⟨⟨hc.registry, hupdate.monitors⟩, load_phase ha (fun b u => ?_) rfl ?_⟩
    · rw [update_context]
      split
      · next hb => rw [hb, ClusterPluginContext.load_maintainProxyInstances]
      · rfl
    · rw [hphase]
      exact Nat.zero_lt_one
  | connect a x =>
    obtain ⟨m, m', hm, hconnected, hconnect, rfl⟩ := next_connect hnext
    have ha := hnode hm
    obtain rfl : m.afterConnect a = m' :=
      Option.some.inj ((Monitor.onConnect_eq (hshort a ha) m).symm.trans hconnect)
    obtain ⟨hwithin, hname⟩ := hmonitor hm
    refine ⟨hc.modify fun _ _ _ _ => hwithin.afterConnect (hc.registry a ha), ?_⟩
    refine load_modify (k := 1) hc (hc.registry a ha) hm (fun _ _ => hname) ?_
    simp only [Monitor.load, Monitor.afterConnect, hconnected, List.length_append,
      List.length_cons, List.length_nil, if_true, Bool.false_eq_true, if_false, Nat.add_mul]
    omega
  | run a x ok =>
    obtain ⟨m, q, commands, hm, hcommands, rfl⟩ := next_run hnext
    have ha := hc.registry a (hnode hm)
    obtain ⟨hwithin, -⟩ := hmonitor hm
    have hrun : ∀ m' : Monitor, m'.Within U → Monitor.Within U { m' with
        commands := commands
        uplink := if ok then m'.uplink ++ [q] else m'.uplink } := by
      intro m' hm'
      refine { hm' with commands := fun p hp => ?_, uplink := fun p hp => ?_ }
      · exact hwithin.commands p (hcommands ▸ List.mem_cons_of_mem q hp)
      · cases ok with
        | false => exact hm'.uplink p hp
        | true =>
          rcases List.mem_append.mp hp with hp | hp
          · exact hm'.uplink p hp
          · exact hwithin.commands p (hcommands ▸ List.mem_singleton.mp hp ▸ List.mem_cons_self)
    refine ⟨hc.modify fun m' _ _ hm' => hrun m' hm', ?_⟩
    refine load_modify (k := 1) hc ha hm (fun _ hname => hname) ?_
    rw [Monitor.load, Monitor.load, hcommands]
    dsimp only
    cases ok
    all_goals
      simp only [if_true, Bool.false_eq_true, if_false, List.length_append, List.length_cons,
        List.length_nil, Nat.add_mul]
      omega
  | receive a x =>
    obtain ⟨m, packet, uplink, hm, huplink, hreceive⟩ := next_receive hnext
    have ha := hc.registry a (hnode hm)
    obtain ⟨hwithin, -⟩ := hmonitor hm
    -- the packet is off its way
    have hpopped : (c.modify a x fun m => { m with uplink := uplink }).Within U :=
      hc.modify fun m' _ _ hm' => { hm' with
        uplink := fun p hp => hwithin.uplink p (huplink ▸ List.mem_cons_of_mem packet hp) }
    have hless : (c.modify a x fun m => { m with uplink := uplink }).load U + (#U + 1) ≤
        c.load U := by
      refine load_modify hc ha hm (fun _ hname => hname) ?_
      rw [Monitor.load, Monitor.load, huplink, List.length_cons, Nat.succ_mul uplink.length]
      dsimp only
      omega
    obtain ⟨hwithin', hload⟩ := settle_receivePacket hpopped
      ((wellFormed_of_reachable h).prefix_clientId (ClusterPluginContext.mem_of_monitor? hm).1)
      (hwithin.uplink packet (huplink ▸ List.mem_cons_self)) hreceive
    exact ⟨hwithin', by omega⟩
  | deliver a x =>
    obtain ⟨m, message, inbox, hm, hinbox, rfl⟩ := next_deliver hnext
    have ha := hc.registry a (hnode hm)
    obtain ⟨hwithin, -⟩ := hmonitor hm
    have hpayload : message.payload ∈ U :=
      hwithin.inbox message (hinbox ▸ List.mem_cons_self)
    have hpopped : (c.modify a x fun m => { m with inbox := inbox }).Within U :=
      hc.modify fun m' _ _ hm' => { hm' with
        inbox := fun p hp => hwithin.inbox p (hinbox ▸ List.mem_cons_of_mem message hp) }
    have hless : (c.modify a x fun m => { m with inbox := inbox }).load U + 1 ≤ c.load U := by
      refine load_modify hc ha hm (fun _ hname => hname) ?_
      rw [Monitor.load, Monitor.load, hinbox, List.length_cons]
      dsimp only
      omega
    have hself : ((c.modify a x fun m => { m with inbox := inbox }).context a) =
        (c.context a).modify x fun m => { m with inbox := inbox } := by
      rw [modify_context, if_pos rfl]
    have hsame : (c.update a (((c.context a).modify x fun m =>
        { m with inbox := inbox }).onMessage md5 message)).load U =
          (c.modify a x fun m => { m with inbox := inbox }).load U := by
      refine load_congr rfl fun b u => ?_
      rw [update_context, modify_context]
      split
      · exact ClusterPluginContext.load_onMessage message u
      · rfl
    exact ⟨hc.update (ClusterPluginContext.within_onMessage hpayload
      (hself ▸ hpopped.monitors a)), by omega⟩

/-! ## Rest -/

/-- A cluster that is left to itself has no more steps than there is to be done. -/
theorem settling_exec {ls : List ClusterLabel} (h : (cluster md5 apiJoin).Reachable c)
    (hc : c.Within U) (hshort : ∀ a ∈ c.registry, a.length < 2 ^ 31 - 1)
    (hexec : (settling md5 apiJoin).exec c ls = some c') :
    ((cluster md5 apiJoin).Reachable c' ∧ c'.Within U ∧ c'.registry = c.registry) ∧
      c'.load U + ls.length ≤ c.load U := by
  let kept (c' : Cluster) : Prop :=
    (cluster md5 apiJoin).Reachable c' ∧ c'.Within U ∧ c'.registry = c.registry
  refine @TransitionSystem.exec_length_le _ _ (settling md5 apiJoin) c c' kept (load U) ?_ ls
    ⟨h, hc, rfl⟩ hexec
  rintro c₁ l c₂ ⟨hreachable, hwithin, hregistry⟩ hstep
  obtain ⟨hinternal, hnext⟩ := TransitionSystem.restrict_next.mp hstep
  obtain ⟨hwithin', hlt⟩ := settle_step hreachable hwithin (hregistry ▸ hshort) hinternal hnext
  have hsame : c₂.registry = c₁.registry :=
    registry_eq_of_next hnext fun a hl => by simp [hl, ClusterLabel.Internal] at hinternal
  exact ⟨⟨hreachable.step l hnext, hwithin', hsame.trans hregistry⟩, hlt⟩

/-- Where no step is left, all registered nodes have joined, and nothing is under way. -/
theorem rest_of_stuck (h : (cluster md5 apiJoin).Reachable c)
    (hshort : ∀ a ∈ c.registry, a.length < 2 ^ 31 - 1)
    (hstuck : ∀ l, (settling md5 apiJoin).next c l = none) :
    c.Quiescent ∧ ∀ a ∈ c.registry, c.Joined a := by
  have hnone : ∀ l : ClusterLabel, l.Internal → c.next md5 l = none := by
    intro l hl
    exact (if_pos hl).symm.trans (hstuck l)
  have hs := sound_of_reachable h
  have hwell := wellFormed_of_reachable h
  constructor
  · intro a m hm
    have hmonitor : (c.context a).monitor? m.name = some m := by
      cases hfound : (c.context a).monitor? m.name with
      | none => exact absurd (List.find?_eq_none.mp hfound m hm) (by simp)
      | some m' => rw [ClusterPluginContext.eq_of_monitor? (hwell.nodup a) hfound hm rfl]
    have ha := mem_registry_of_mem h hm
    have hconnected : m.connected = true := by
      by_contra hnot
      have hconnect := hnone (.connect a m.name) trivial
      rw [next, hmonitor, Option.bind_some, if_neg hnot, Monitor.onConnect_eq (hshort a ha)]
        at hconnect
      cases hconnect
    refine ⟨hconnected, ?_, ?_, ?_⟩
    · cases hcommands : m.commands with
      | nil => rfl
      | cons q commands =>
        have hrun := hnone (.run a m.name true) trivial
        rw [next, hmonitor, Option.bind_some, hconnected, hcommands] at hrun
        cases hrun
    · cases huplink : m.uplink with
      | nil => rfl
      | cons packet uplink =>
        have hreceive := hnone (.receive a m.name) trivial
        rw [next, hmonitor, Option.bind_some, huplink] at hreceive
        exact absurd hreceive (receivePacket_ne_none (hwell.prefix_clientId hm))
    · cases hinbox : m.inbox with
      | nil => rfl
      | cons message inbox =>
        have hdeliver := hnone (.deliver a m.name) trivial
        rw [next, hmonitor, Option.bind_some, hinbox] at hdeliver
        cases hdeliver
  · intro a ha
    cases hphase : c.phase a with
    | idle => exact absurd ha ((hs.idle a).mp hphase)
    | registered =>
      have hanswer := hnone (.answer a) trivial
      rw [next, if_pos hphase] at hanswer
      cases hanswer
    | answered nodes =>
      have htakeOver := hnone (.takeOver a) trivial
      rw [next, hphase] at htakeOver
      cases htakeOver
    | joined nodes => exact ⟨nodes, hphase⟩

end Cluster

/-- A cluster without new nodes and new publishes comes to rest, whatever the order of its steps:
there is a bound on their number, and where no step is left, all registered nodes have joined and
nothing is under way. -/
theorem comes_to_rest {c : Cluster} (h : (cluster md5 apiJoin).Reachable c)
    (hshort : ∀ a ∈ c.registry, a.length < 2 ^ 31 - 1) :
    ∃ bound, ∀ ls c', (settling md5 apiJoin).exec c ls = some c' → ls.length ≤ bound ∧
      ((∀ l, (settling md5 apiJoin).next c' l = none) →
        c'.Quiescent ∧ ∀ a ∈ c.registry, c'.Joined a) := by
  obtain ⟨U, hc⟩ := Cluster.exists_within h
  refine ⟨c.load U, fun ls c' hexec => ?_⟩
  obtain ⟨⟨hreachable, -, hregistry⟩, hlength⟩ := Cluster.settling_exec h hc hshort hexec
  refine ⟨by omega, fun hstuck => ?_⟩
  have hrest := Cluster.rest_of_stuck hreachable (hregistry ▸ hshort) hstuck
  exact ⟨hrest.1, hregistry ▸ hrest.2⟩

/-- Two nodes that have registered. -/
theorem comes_to_rest_two_nodes :
    ∃ c bound, (cluster md5Abc joinUrl).exec (.start joinUrl)
        [.register (bytes "a"), .register (bytes "b")] = some c ∧
      ∀ ls c', (settling md5Abc joinUrl).exec c ls = some c' → ls.length ≤ bound ∧
        ((∀ l, (settling md5Abc joinUrl).next c' l = none) →
          c'.Quiescent ∧ ∀ a ∈ c.registry, c'.Joined a) := by
  obtain ⟨c, hexec, hregistry⟩ : ∃ c, (cluster md5Abc joinUrl).exec (.start joinUrl)
      [.register (bytes "a"), .register (bytes "b")] = some c ∧
      decide (c.registry = [bytes "a", bytes "b"]) := Option.any_eq_true _ _ |>.mp (by decide)
  have hshort : ∀ a ∈ c.registry, a.length < 2 ^ 31 - 1 := by
    rw [of_decide_eq_true hregistry]
    decide
  obtain ⟨bound, hrest⟩ := comes_to_rest (TransitionSystem.reachable_of_exec hexec) hshort
  exact ⟨c, bound, hexec, hrest⟩

end MosqCluster
