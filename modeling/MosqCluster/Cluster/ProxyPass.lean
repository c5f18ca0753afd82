import MosqCluster.Cluster.Invariant

/-!
# Proxying neither loops nor duplicates

A publish of an ordinary client is queued once for every peer of the node that receives it. The
copies arrive at the peers under client ids that begin with `mosqcluster`, for which `MosqProxyPass`
does nothing, so that no copy is copied again, whatever graph the peer lists form.

## Main definitions

* `Monitor.copies`: the commands of a monitor that copy a given publish;
* `Cluster.CopiedOnce`: one copy for each peer of one node, and no other.

## Main results

* `proxied_once`: a publish of an ordinary client is copied once for each peer, and never again.
-/

namespace MosqCluster

/-- The commands ever queued on a monitor that copy the publish number `k`. -/
def Monitor.copies (k : Nat) (m : Monitor) : List MosqCommand :=
  (m.pushed.filter (·.origin = some k)).map Tagged.command

/-- The monitors of the node `a` for the peers `names` have queued one copy of the publish number
`k`, with its topic, payload, quality of service and retain flag; no other monitor has queued
one. -/
def Cluster.CopiedOnce (c : Cluster) (k : Nat) (a : Bytes) (names : List Bytes)
    (topic payload : Bytes) (qos : Int32) (retain : Bool) : Prop :=
  ∀ b, ∀ m ∈ (c.context b).clusterNodes,
    if b = a ∧ m.name ∈ names then ∃ id, m.copies k = [.publish id topic payload qos retain]
    else m.copies k = []

variable {md5 : Bytes → Vector UInt8 16} {apiJoin : Bytes → Bytes} {origins : Option Nat → Prop}

/-! ## The client ids -/

/-- The client id of a monitor is a constant followed by the digest of the name of the peer. -/
theorem proxyClientId_eq (name : Bytes) :
    proxyClientId md5 name =
      bytes "mosqcluster/" ++ bytes2HexStr (md5 (cString name)).toList := by
  have hlen : (bytes "mosqcluster/" ++ bytes2HexStr (md5 (cString name)).toList).length = 44 := by
    rw [List.length_append, length_bytes2HexStr, Vector.length_toList]
    rfl
  unfold proxyClientId format
  rw [hlen]
  simp

/-- The client id of a monitor begins with `mosqcluster`. -/
theorem prefix_proxyClientId (name : Bytes) :
    bytes "mosqcluster" <+: cString (proxyClientId md5 name) := by
  have hnul : ∀ b ∈ bytes "mosqcluster/", decide (b ≠ 0) = true :=
    List.all_eq_true.mp (by decide)
  rw [proxyClientId_eq, cString, List.takeWhile_append_of_pos hnul]
  exact (by decide : bytes "mosqcluster" <+: bytes "mosqcluster/").trans (List.prefix_append _ _)

/-! ## What is queued for one publish -/

/-- A monitor that has queued a publish. -/
def Monitor.queuePublish (m : Monitor) (origin : Option Nat) (topic payload : Bytes) (qos : Int32)
    (retain : Bool) : Monitor :=
  let command := .publish (m.commandId + 1).toInt32 topic payload qos retain
  { m with
    commandId := m.commandId + 1
    commands := m.commands ++ [⟨origin, command⟩]
    pushed := m.pushed ++ [⟨origin, command⟩] }

/-- `MosqProxyPass` queues the publish on every monitor, with the same topic and payload. -/
theorem publishAll_eq {origin : Option Nat} {topic payload : Bytes} {qos : Int32} {retain : Bool}
    (htopic : 0 ∉ topic) (hpayload : payload.length < 2 ^ 31 - 1) (nodes : List Monitor) :
    ClusterPluginContext.publishAll origin
        (.publish (cString topic) payload (Int64.ofNat payload.length).toInt32 qos retain) nodes =
      some (nodes.map (·.queuePublish origin topic payload qos retain)) := by
  have hrequest : ∀ m : Monitor, m.request origin
      (.publish (cString topic) payload (Int64.ofNat payload.length).toInt32 qos retain) =
        some (m.queuePublish origin topic payload qos retain) := by
    intro m
    simp [Monitor.request, Request.command, Monitor.queuePublish, htopic, xstring_length hpayload]
  induction nodes with
  | nil => rfl
  | cons m ms ih =>
    simp only [ClusterPluginContext.publishAll, hrequest, ih, Option.bind_some, Option.map_some,
      List.map_cons]

/-- `MosqProxyPass` queues a publish of an ordinary client on every monitor of the node. -/
theorem mosqProxyPass_eq {ctx : ClusterPluginContext} {origin : Option Nat}
    {clientId topic payload : Bytes} {qos : Int32} {retain : Bool}
    (hclient : ¬ bytes "mosqcluster" <+: clientId) (htopic : 0 ∉ topic)
    (hpayload : payload.length < 2 ^ 31 - 1) (hjoin : ctx.apiJoin = [] → ctx.clusterNodes = []) :
    ctx.mosqProxyPass origin clientId topic payload (Int64.ofNat payload.length) qos retain =
      some { ctx with
        clusterNodes :=
          ctx.clusterNodes.map (·.queuePublish origin topic payload qos retain) } := by
  have hprefix : ¬ bytes "mosqcluster" <+: cString clientId := fun h =>
    hclient (h.trans (List.takeWhile_prefix _))
  unfold ClusterPluginContext.mosqProxyPass
  rw [if_neg hprefix, publishAll_eq htopic hpayload]
  split
  case isTrue h =>
    have := hjoin (by simpa using h)
    cases ctx
    simp_all
  case isFalse h => rfl

/-! ## Nodes without a service -/

namespace Cluster

variable {c c' : Cluster} {l : ClusterLabel}

/-- A node without `api-join` never joins and never has a peer. -/
def Unconfigured (c : Cluster) (a : Bytes) : Prop :=
  (c.context a).clusterNodes = [] ∧ c.phase a = .idle

/-- A node without monitors has none after a broker has received a publish. -/
theorem receivePublish_nil {a x clientId topic payload : Bytes} {origin : Option Nat} {qos : Int32}
    {retain : Bool} (ha : (c.context a).clusterNodes = [])
    (h : c.receivePublish x origin clientId topic payload qos retain = some c') :
    (c'.context a).clusterNodes = [] ∧ c'.phase = c.phase := by
  obtain ⟨ctx, hctx, rfl⟩ := Option.map_eq_some_iff.mp h
  have hnil : a = x → ctx.clusterNodes = [] := by
    rintro rfl
    unfold ClusterPluginContext.mosqProxyPass at hctx
    split_ifs at hctx
    · exact (Option.some.inj hctx) ▸ ha
    · exact (Option.some.inj hctx) ▸ ha
    · rw [ha] at hctx
      exact (Option.some.inj hctx) ▸ rfl
  refine ⟨?_, rfl⟩
  by_cases hx : a = x
  · simp [broadcast, ClusterPluginContext.modify, hx, hnil hx]
  · simp [broadcast, ClusterPluginContext.modify, hx, ha]

/-- A peer of a node has a monitor there. -/
theorem ne_of_monitor? {a b x : Bytes} {m : Monitor} (ha : (c.context a).clusterNodes = [])
    (hm : (c.context b).monitor? x = some m) : a ≠ b := by
  rintro rfl
  simp [ClusterPluginContext.monitor?, ha] at hm

/-- Every step leaves a node without `api-join` where it is. -/
theorem Unconfigured.step {a : Bytes} (ha : c.Unconfigured a) (hjoin : (c.context a).apiJoin = [])
    (h : c.next md5 l = some c') : c'.Unconfigured a := by
  obtain ⟨hnodes, hphase⟩ := ha
  cases l with
  | register b =>
    obtain ⟨⟨-, -, hb⟩, h⟩ := Option.ite_none_right_eq_some.mp h
    have hab : a ≠ b := by
      rintro rfl
      exact hb hjoin
    exact (Option.some.inj h) ▸ ⟨hnodes, by simpa [hab] using hphase⟩
  | answer b =>
    obtain ⟨hb, h⟩ := Option.ite_none_right_eq_some.mp h
    have hab : a ≠ b := by
      rintro rfl
      simp [hphase] at hb
    exact (Option.some.inj h) ▸ ⟨hnodes, by simpa [hab] using hphase⟩
  | takeOver b =>
    obtain ⟨nodes, hb, rfl⟩ := next_takeOver h
    have hab : a ≠ b := by
      rintro rfl
      simp [hphase] at hb
    exact ⟨by simpa [hab] using hnodes, by simpa [hab] using hphase⟩
  | connect b x =>
    obtain ⟨m, m', hm, -, -, rfl⟩ := next_connect h
    exact ⟨by simpa [ne_of_monitor? hnodes hm] using hnodes, hphase⟩
  | run b x ok =>
    obtain ⟨m, q, commands, hm, -, rfl⟩ := next_run h
    exact ⟨by simpa [ne_of_monitor? hnodes hm] using hnodes, hphase⟩
  | deliver b x =>
    obtain ⟨m, message, inbox, hm, -, rfl⟩ := next_deliver h
    exact ⟨by simpa [ne_of_monitor? hnodes hm] using hnodes, hphase⟩
  | receive b x =>
    obtain ⟨m, packet, uplink, hm, -, h⟩ := next_receive h
    -- The node has no monitor, so that it takes no packet.
    have hab := ne_of_monitor? hnodes hm
    have hpop : ((c.modify b x fun m => { m with uplink := uplink }).context a).clusterNodes = [] :=
      by simpa [hab] using hnodes
    unfold receivePacket at h
    split at h
    · obtain ⟨hnodes, hphases⟩ := receivePublish_nil hpop h
      exact ⟨hnodes, by rw [hphases]; exact hphase⟩
    · rw [← Option.some.inj h]
      split <;> exact ⟨by simpa [hab] using hnodes, hphase⟩
    · rw [← Option.some.inj h]
      exact ⟨by simpa [hab] using hnodes, hphase⟩
  | clientPublish x clientId topic payload qos retain =>
    obtain ⟨hnodes, hphases⟩ := receivePublish_nil (c := { c with published := c.published + 1 })
      hnodes h
    exact ⟨hnodes, by rw [hphases]; exact hphase⟩

/-! ## Copies -/

/-- What is queued for a client publish copies the next number; nothing else copies a publish. -/
theorem next_published (h : c.next md5 l = some c') :
    c'.published = c.published + 1 ∨ c'.published = c.published ∧
      ¬ ∃ x clientId topic payload qos retain,
        l = .clientPublish x clientId topic payload qos retain := by
  cases l with
  | register b | answer b =>
    obtain ⟨-, h⟩ := Option.ite_none_right_eq_some.mp h
    exact .inr ((Option.some.inj h) ▸ ⟨rfl, by simp⟩)
  | takeOver b =>
    obtain ⟨nodes, -, rfl⟩ := next_takeOver h
    exact .inr ⟨rfl, by simp⟩
  | connect b x =>
    obtain ⟨m, m', -, -, -, rfl⟩ := next_connect h
    exact .inr ⟨rfl, by simp⟩
  | run b x ok =>
    obtain ⟨m, q, commands, -, -, rfl⟩ := next_run h
    exact .inr ⟨rfl, by simp⟩
  | deliver b x =>
    obtain ⟨m, message, inbox, -, -, rfl⟩ := next_deliver h
    exact .inr ⟨rfl, by simp⟩
  | receive b x =>
    obtain ⟨m, packet, uplink, -, -, h⟩ := next_receive h
    refine .inr ⟨?_, by simp⟩
    unfold receivePacket at h
    split at h
    · obtain ⟨ctx, -, rfl⟩ := Option.map_eq_some_iff.mp h
      rfl
    · rw [← Option.some.inj h]
      split <;> rfl
    · rw [← Option.some.inj h]
      rfl
  | clientPublish x clientId topic payload qos retain =>
    obtain ⟨ctx, -, rfl⟩ := Option.map_eq_some_iff.mp h
    exact .inl rfl

/-- The plugin takes no monitor for an ordinary client. -/
theorem WellFormed.prefix_clientId (hc : c.WellFormed md5 apiJoin) {a : Bytes} {m : Monitor}
    (hm : m ∈ (c.context a).clusterNodes) : bytes "mosqcluster" <+: cString m.clientId := by
  rw [(hc.monitors a m hm).clientId]
  exact prefix_proxyClientId m.name

/-- What a step does to the monitors, where the only commands that copy a publish copy the one the
step receives from an ordinary client. -/
theorem WellFormed.next_evolves (hc : c.WellFormed md5 apiJoin) (hnone : origins none)
    (hclient : (∃ x clientId topic payload qos retain,
      l = .clientPublish x clientId topic payload qos retain) → origins (some c.published))
    (h : c.next md5 l = some c') (b : Bytes) :
    (c.context b).Evolves md5 origins (c'.context b) :=
  Cluster.next_evolves hc.nodup hnone hclient
    (fun _ _ hm _ _ hprefix => absurd (hc.prefix_clientId hm) hprefix) h b

end Cluster

/-- Commands that do not copy a publish leave its copies alone. -/
theorem Monitor.Steps.copies_eq {k : Nat} {m m' : Monitor} (h : m.Steps (· ≠ some k) m') :
    m'.copies k = m.copies k := by
  induction h with
  | refl => rfl
  | tail _ hstep ih =>
    refine Eq.trans ?_ ih
    cases hstep with
    | publish horigin h | subscribe horigin h =>
      obtain ⟨command, -, rfl⟩ := Monitor.request_eq h
      simp [Monitor.copies, List.filter_append, horigin]
    | _ => rfl

namespace Cluster

variable {c c' : Cluster} {l : ClusterLabel} {k : Nat} {a : Bytes} {names : List Bytes}
  {topic payload : Bytes} {qos : Int32} {retain : Bool}

/-- Only publishes that have been received are copied. -/
def CopiesReceived (c : Cluster) : Prop :=
  ∀ k, c.published ≤ k → ∀ a, ∀ m ∈ (c.context a).clusterNodes, m.copies k = []

/-- Every step copies publishes that have been received only. -/
theorem CopiesReceived.step (hcopies : c.CopiesReceived) (hc : c.WellFormed md5 apiJoin)
    (h : c.next md5 l = some c') : c'.CopiesReceived := by
  intro k hk a m' hm'
  have hpublished : c.published ≤ k := by
    rcases next_published h with h | ⟨h, -⟩ <;> omega
  have hclient : (∃ x clientId topic payload qos retain,
      l = .clientPublish x clientId topic payload qos retain) → some c.published ≠ some k := by
    intro hl
    rcases next_published h with h | ⟨-, hno⟩
    · simp only [ne_eq, Option.some.injEq]
      omega
    · exact absurd hl hno
  have hevolves : (c.context a).Evolves md5 (· ≠ some k) (c'.context a) :=
    hc.next_evolves (by simp) hclient h a
  obtain ⟨new, hnew⟩ := hevolves
  obtain ⟨m, hm, hsteps⟩ := exists_of_mem_forall₂ hnew.monitors hm'
  rw [hsteps.copies_eq]
  rcases List.mem_append.mp hm with hm | hm
  · exact hcopies k hpublished a m hm
  · obtain ⟨name, -, rfl⟩ := List.mem_map.mp hm
    rfl

/-- The publish number `k` has been copied once for each peer, and its number is taken. -/
structure Copied (md5 : Bytes → Vector UInt8 16) (apiJoin : Bytes → Bytes) (c : Cluster) (k : Nat)
    (a : Bytes) (names : List Bytes) (topic payload : Bytes) (qos : Int32) (retain : Bool) :
    Prop where
  /-- The cluster is well formed. -/
  wellFormed : c.WellFormed md5 apiJoin
  /-- The number is taken. -/
  received : k < c.published
  /-- Peers stay in the list. -/
  peers : ∀ name ∈ names, name ∈ (c.context a).names
  /-- There is one copy for each of the peers. -/
  copiedOnce : c.CopiedOnce k a names topic payload qos retain

/-- No step queues a further copy. -/
theorem Copied.step (hcopied : c.Copied md5 apiJoin k a names topic payload qos retain)
    (h : c.next md5 l = some c') : c'.Copied md5 apiJoin k a names topic payload qos retain := by
  obtain ⟨hc, hreceived, hpeers, hcopies⟩ := hcopied
  have hevolves : ∀ b, (c.context b).Evolves md5 (· ≠ some k) (c'.context b) :=
    hc.next_evolves (by simp) (fun _ => by simpa using hreceived.ne') h
  refine ⟨hc.step h, ?_, fun name hname => ?_, fun b m' hm' => ?_⟩
  · rcases next_published h with h | ⟨h, -⟩ <;> omega
  · obtain ⟨new, hnew⟩ := hevolves a
    rw [hnew.names_eq]
    exact List.mem_append_left _ (hpeers name hname)
  · obtain ⟨new, hnew⟩ := hevolves b
    obtain ⟨m, hm, hsteps⟩ := exists_of_mem_forall₂ hnew.monitors hm'
    rw [hsteps.copies_eq, hsteps.name_eq]
    rcases List.mem_append.mp hm with hm | hm
    · exact hcopies b m hm
    · -- a monitor that has just been started is for a peer that was not in the list
      obtain ⟨name, hname, rfl⟩ := List.mem_map.mp hm
      rw [if_neg]
      · rfl
      · rintro ⟨rfl, hmem⟩
        exact hnew.fresh name hname (hpeers name hmem)

/-- A broker receives a publish of an ordinary client: the plugin queues one copy on every monitor
of the node, and the monitors that subscribe to the topic get the message. -/
theorem next_clientPublish {clientId : Bytes} (hclient : ¬ bytes "mosqcluster" <+: clientId)
    (htopic : 0 ∉ topic) (hpayload : payload.length < 2 ^ 31 - 1)
    (hjoin : (c.context a).apiJoin = [] → (c.context a).clusterNodes = []) :
    c.next md5 (.clientPublish a clientId topic payload qos retain) =
      some (({ c with published := c.published + 1 }.update a { c.context a with
        clusterNodes := (c.context a).clusterNodes.map fun m : Monitor =>
          m.queuePublish (some c.published) topic payload qos retain }).broadcast a
        ⟨topic, payload⟩) := by
  simp [next, receivePublish, mosqProxyPass_eq hclient htopic hpayload hjoin]

/-- A broadcast changes nothing but inboxes. -/
theorem broadcast_map {β : Type} {f : Monitor → β} {x b : Bytes} {message : Message}
    (hf : ∀ m inbox, f { m with inbox := inbox } = f m) :
    ((c.broadcast x message).context b).clusterNodes.map f = (c.context b).clusterNodes.map f := by
  simp only [broadcast, ClusterPluginContext.modify, List.map_map]
  refine List.map_congr_left fun m _ => ?_
  simp only [Function.comp_apply]
  split_ifs <;> simp [hf]

/-- The number of a publish is new: the copies just queued are the only ones. -/
theorem CopiesReceived.copiedOnce (hcopies : c.CopiesReceived) :
    (({ c with published := c.published + 1 }.update a { c.context a with
        clusterNodes := (c.context a).clusterNodes.map fun m : Monitor =>
          m.queuePublish (some c.published) topic payload qos retain }).broadcast a
        ⟨topic, payload⟩).CopiedOnce c.published a (c.context a).names topic payload qos
          retain := by
  intro b m' hm'
  have hmem := List.mem_map_of_mem (f := fun m => (m.name, m.copies c.published)) hm'
  rw [broadcast_map fun _ _ => rfl] at hmem
  obtain ⟨m, hm, heq⟩ := List.mem_map.mp hmem
  obtain ⟨hname, hcopy⟩ := Prod.mk.inj heq
  rw [← hname, ← hcopy]
  by_cases hb : b = a
  · subst hb
    simp only [update_context, if_true] at hm
    obtain ⟨m₀, hm₀, rfl⟩ := List.mem_map.mp hm
    have hpeer : m₀.name ∈ (c.context b).names := List.mem_map_of_mem hm₀
    rw [if_pos ⟨rfl, hpeer⟩]
    -- No copy has this number yet.
    have hnone : (m₀.pushed.filter (·.origin = some c.published)).map Tagged.command = [] :=
      hcopies _ le_rfl b m₀ hm₀
    refine ⟨(m₀.commandId + 1).toInt32, ?_⟩
    simp [Monitor.copies, Monitor.queuePublish, hnone]
  · simp only [update_context, if_neg hb] at hm
    rw [if_neg fun h => hb h.1]
    exact hcopies _ le_rfl b m hm

/-- What holds in every reachable state besides well-formedness. -/
theorem invariant_of_reachable (h : (cluster md5 apiJoin).Reachable c) :
    c.WellFormed md5 apiJoin ∧ c.CopiesReceived ∧ ∀ a, apiJoin a = [] → c.Unconfigured a := by
  refine TransitionSystem.Reachable.invariant (T := cluster md5 apiJoin) (P := fun c =>
    c.WellFormed md5 apiJoin ∧ c.CopiesReceived ∧ ∀ a, apiJoin a = [] → c.Unconfigured a)
    ⟨wellFormed_of_reachable .refl, ?_, ?_⟩ ?_ h
  · simp [CopiesReceived, cluster, start]
  · exact fun a _ => ⟨rfl, rfl⟩
  · rintro s l s' ⟨hs, hcopies, hidle⟩ hnext
    refine ⟨hs.step hnext, hcopies.step hs hnext, fun a ha => ?_⟩
    exact (hidle a ha).step ((hs.apiJoin_eq a).trans ha) hnext

end Cluster

/-- In every reachable state, a publish of an ordinary client queues exactly one command on each
monitor of the node that receives it, with the topic, payload, quality of service and retain flag of
the publish; and in every later state these are the only commands ever queued that copy it. -/
theorem proxied_once {c : Cluster} (hreachable : (cluster md5 apiJoin).Reachable c)
    (a clientId topic payload : Bytes) (qos : Int32) (retain : Bool)
    (hclient : ¬ bytes "mosqcluster" <+: clientId) (htopic : 0 ∉ topic)
    (hpayload : payload.length < 2 ^ 31 - 1) :
    ∃ c', (cluster md5 apiJoin).next c (.clientPublish a clientId topic payload qos retain) =
        some c' ∧
      (c'.context a).clusterNodes.map Monitor.commands =
        (c.context a).clusterNodes.map (fun m => m.commands ++
          [⟨some c.published, .publish (m.commandId + 1).toInt32 topic payload qos retain⟩]) ∧
      (∀ b ≠ a, (c'.context b).clusterNodes.map Monitor.commands =
        (c.context b).clusterNodes.map Monitor.commands) ∧
      ∀ c'', (cluster md5 apiJoin).Run c' c'' →
        c''.CopiedOnce c.published a (c.context a).names topic payload qos retain := by
  obtain ⟨hc, hcopies, hidle⟩ := Cluster.invariant_of_reachable hreachable
  have hjoin : (c.context a).apiJoin = [] → (c.context a).clusterNodes = [] := fun h =>
    (hidle a ((hc.apiJoin_eq a).symm.trans h)).1
  have hnext : c.next md5 (.clientPublish a clientId topic payload qos retain) = some _ :=
    Cluster.next_clientPublish hclient htopic hpayload hjoin
  refine ⟨_, hnext, ?_, fun b hb => ?_, fun c'' hrun => ?_⟩
  · rw [Cluster.broadcast_map fun _ _ => rfl]
    simp [Monitor.queuePublish]
  · rw [Cluster.broadcast_map fun _ _ => rfl]
    simp only [Cluster.update_context, if_neg hb]
  · -- What has been copied once stays so over the run.
    have hcopied := hrun.invariant (P := fun c'' => c''.Copied md5 apiJoin c.published a
      (c.context a).names topic payload qos retain) (fun _ _ _ hs hnext => hs.step hnext)
    refine (hcopied ⟨hc.step hnext, Nat.lt_succ_self _, ?_, ?_⟩).copiedOnce
    · intro name hname
      have hevolves : (c.context a).Evolves md5 (fun _ => True) (_ : ClusterPluginContext) :=
        hc.next_evolves trivial (fun _ => trivial) hnext a
      obtain ⟨new, hnew⟩ := hevolves
      rw [hnew.names_eq]
      exact List.mem_append_left _ hname
    · exact hcopies.copiedOnce

/-- Node `b` has joined after node `a`, and a client publishes there. -/
theorem proxied_once_two_nodes :
    ∃ c, (cluster md5Abc joinUrl).exec (.start joinUrl) (joinInTurn [bytes "a", bytes "b"]) =
        some c ∧
      (c.context (bytes "b")).names = [bytes "a"] ∧
      ∃ c', c.next md5Abc (.clientPublish (bytes "b") (bytes "client") (bytes "t") (bytes "p") 0
          false) = some c' ∧
        ∀ c'', (cluster md5Abc joinUrl).Run c' c'' →
          c''.CopiedOnce 0 (bytes "b") [bytes "a"] (bytes "t") (bytes "p") 0 false := by
  obtain ⟨c, hexec⟩ : ∃ c, (cluster md5Abc joinUrl).exec (.start joinUrl)
      (joinInTurn [bytes "a", bytes "b"]) = some c := ⟨_, rfl⟩
  have hnames : (c.context (bytes "b")).names = [bytes "a"] ∧ c.published = 0 := by
    obtain rfl := Option.some.inj hexec
    decide
  obtain ⟨c', hnext, -, -, hrun⟩ := proxied_once (TransitionSystem.reachable_of_exec hexec)
    (bytes "b") (bytes "client") (bytes "t") (bytes "p") 0 false (by decide) (by decide)
    (by decide)
  rw [hnames.1, hnames.2] at hrun
  exact ⟨c, hexec, hnames.1, c', hnext, hrun⟩

end MosqCluster
