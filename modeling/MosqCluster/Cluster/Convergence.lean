import MosqCluster.Cluster.Invariant
import MosqCluster.Cluster.Membership

/-!
# When the membership converges

The cluster takes the steps of the membership. In a quiescent state a node therefore knows exactly
the nodes it has heard of, and the lists of two nodes are complete only where the order of the
joins, subscriptions and announcements has made them so. A node is not subscribed on its own broker,
so that the first node of a cluster whose nodes join one after another hears of nobody.

## Main definitions

* `Cluster.membership`: the abstract state of a cluster;
* `Cluster.Quiescent` and `Cluster.Converged`: the states in question, and what they should be like;
* `JoinsInTurn`: no join begins before the ones before it have ended.

## Main results

* `Cluster.membership_step`: every step of the cluster is a step of the membership;
* `converged_iff_hearsOf`: when the membership converges.
-/

namespace MosqCluster

variable {md5 : Bytes → Vector UInt8 16} {apiJoin : Bytes → Bytes}

/-- What the membership is about: the name of the peer, the subscriptions and the messages on their
way. -/
def Monitor.face (m : Monitor) : Bytes × List Bytes × List Message :=
  (m.name, m.subscriptions, m.inbox)

namespace ClusterPluginContext

variable {ctx ctx' : ClusterPluginContext} {P : Monitor → Prop}

/-- The peers after a monitor has been started. -/
theorem mem_names_maintainProxyInstance {name x : Bytes} :
    x ∈ (ctx.maintainProxyInstance md5 name).names ↔ x ∈ ctx.names ∨ x = name := by
  unfold maintainProxyInstance
  split
  case isTrue h =>
    have hname : name ∈ ctx.names := by simpa [names] using h
    constructor
    · exact .inl
    · rintro (hx | rfl)
      · exact hx
      · exact hname
  case isFalse h => simp [names, Monitor.start]

/-- A monitor that is started does not change the name of the node. -/
theorem nodeName_maintainProxyInstance (name : Bytes) :
    (ctx.maintainProxyInstance md5 name).nodeName = ctx.nodeName := by
  unfold maintainProxyInstance
  split <;> rfl

/-- The peers after the names of a reply have been taken over. -/
theorem mem_names_maintainProxyInstances {nodes : List Bytes} {x : Bytes} :
    x ∈ (ctx.maintainProxyInstances md5 nodes).names ↔
      x ∈ ctx.names ∨ x ∈ nodes ∧ x ≠ ctx.nodeName := by
  unfold maintainProxyInstances
  induction nodes generalizing ctx with
  | nil => simp
  | cons name nodes ih =>
    rw [List.foldl_cons]
    split
    case isTrue h =>
      rw [ih]
      grind
    case isFalse h =>
      rw [ih, mem_names_maintainProxyInstance, nodeName_maintainProxyInstance]
      grind

/-- A monitor that has just been started adds nothing to what it does not have. -/
theorem exists_maintainProxyInstance (hP : ∀ name, ¬ P (Monitor.start md5 name)) {name : Bytes} :
    (∃ m ∈ (ctx.maintainProxyInstance md5 name).clusterNodes, P m) ↔
      ∃ m ∈ ctx.clusterNodes, P m := by
  unfold maintainProxyInstance
  split
  case isTrue h => exact Iff.rfl
  case isFalse h => simp [or_and_right, exists_or, hP]

/-- The same for the names of a reply. -/
theorem exists_maintainProxyInstances (hP : ∀ name, ¬ P (Monitor.start md5 name))
    {nodes : List Bytes} :
    (∃ m ∈ (ctx.maintainProxyInstances md5 nodes).clusterNodes, P m) ↔
      ∃ m ∈ ctx.clusterNodes, P m := by
  unfold maintainProxyInstances
  induction nodes generalizing ctx with
  | nil => exact Iff.rfl
  | cons name nodes ih =>
    rw [List.foldl_cons]
    split
    case isTrue h => exact ih
    case isFalse h => exact ih.trans (exists_maintainProxyInstance hP)

/-- An announcement starts a monitor for a node, unless it is the own one. -/
theorem onMessage_of_monitorTopic {message : Message} (htopic : message.topic = monitorTopic) :
    ctx.onMessage md5 message =
      if message.payload ≠ ctx.nodeName then ctx.maintainProxyInstance md5 message.payload
      else ctx := by
  have hcString : monitorTopic = cString message.topic := by rw [htopic]; decide
  rw [onMessage, if_pos hcString]

/-- The peers after an announcement. -/
theorem mem_names_onMessage {message : Message} (htopic : message.topic = monitorTopic)
    {x : Bytes} :
    x ∈ (ctx.onMessage md5 message).names ↔
      x ∈ ctx.names ∨ x = message.payload ∧ message.payload ≠ ctx.nodeName := by
  rw [onMessage_of_monitorTopic htopic]
  split
  case isTrue hne => rw [mem_names_maintainProxyInstance, and_iff_left hne]
  case isFalse heq => rw [or_iff_left fun h => heq h.2]

/-- An announcement adds nothing to what a monitor that has just been started does not have. -/
theorem exists_onMessage {message : Message} (htopic : message.topic = monitorTopic)
    (hP : ∀ name, ¬ P (Monitor.start md5 name)) :
    (∃ m ∈ (ctx.onMessage md5 message).clusterNodes, P m) ↔ ∃ m ∈ ctx.clusterNodes, P m := by
  rw [onMessage_of_monitorTopic htopic]
  split
  case isTrue => exact exists_maintainProxyInstance hP
  case isFalse => rfl

/-- A change of one monitor that keeps its face keeps all faces. -/
theorem faces_modify {x : Bytes} {f : Monitor → Monitor}
    (hf : ∀ m ∈ ctx.clusterNodes, m.name = x → (f m).face = m.face) :
    (ctx.modify x f).clusterNodes.map Monitor.face = ctx.clusterNodes.map Monitor.face := by
  simp only [modify, List.map_map]
  refine List.map_congr_left fun m hm => ?_
  by_cases hname : m.name = x
  · simpa [hname] using hf m hm hname
  · simp [hname]

/-- Changes of a monitor that keep its name keep the names. -/
theorem names_modify {x : Bytes} {f : Monitor → Monitor} (hf : ∀ m, (f m).name = m.name) :
    (ctx.modify x f).names = ctx.names := by
  simp only [names, modify, List.map_map]
  refine List.map_congr_left fun m _ => ?_
  by_cases hname : m.name = x <;> simp [hname, hf]

/-- What is there after the monitor of a peer has been changed. -/
theorem exists_modify {x : Bytes} {f : Monitor → Monitor} :
    (∃ m ∈ (ctx.modify x f).clusterNodes, P m) ↔
      ∃ m ∈ ctx.clusterNodes, P (if m.name = x then f m else m) := by
  simp [modify]

/-- A request of a monitor keeps its face. -/
theorem face_request {m m' : Monitor} {origin : Option Nat} {r : Request}
    (h : m.request origin r = some m') : m'.face = m.face := by
  obtain ⟨command, -, rfl⟩ := Monitor.request_eq h
  rfl

/-- `MosqProxyPass` keeps all faces. -/
theorem faces_mosqProxyPass {origin : Option Nat} {clientId topic payload : Bytes}
    {payloadlen : Int64} {qos : Int32} {retain : Bool}
    (h : ctx.mosqProxyPass origin clientId topic payload payloadlen qos retain = some ctx') :
    ctx'.clusterNodes.map Monitor.face = ctx.clusterNodes.map Monitor.face := by
  have hall : ∀ (r : Request) (nodes nodes' : List Monitor),
      publishAll origin r nodes = some nodes' →
        nodes'.map Monitor.face = nodes.map Monitor.face := by
    intro r nodes
    induction nodes with
    | nil => simp [publishAll]
    | cons m ms ih =>
      intro nodes' h
      obtain ⟨m', hm', h⟩ := Option.bind_eq_some_iff.mp h
      obtain ⟨ms', hms', rfl⟩ := Option.map_eq_some_iff.mp h
      rw [List.map_cons, List.map_cons, face_request hm', ih ms' hms']
  unfold mosqProxyPass at h
  split_ifs at h
  · exact (Option.some.inj h) ▸ rfl
  · exact (Option.some.inj h) ▸ rfl
  · obtain ⟨nodes, hnodes, rfl⟩ := Option.map_eq_some_iff.mp h
    exact hall _ _ _ hnodes

end ClusterPluginContext

namespace Cluster

variable {c c' : Cluster} {l : ClusterLabel}

/-- The abstract state of a cluster. -/
def membership (c : Cluster) : Membership where
  knows a b := b ∈ (c.context a).names
  subscribed a x := ∃ m ∈ (c.context a).clusterNodes, m.name = x ∧ monitorTopic ∈ m.subscriptions
  inFlight a x b := ∃ m ∈ (c.context a).clusterNodes, m.name = x ∧
    ∃ message ∈ m.inbox, message.payload = b
  phase := c.phase
  registry := c.registry
  history := c.history

/-- The monitors of two clusters have the same faces. -/
def SameFaces (c c' : Cluster) : Prop :=
  ∀ a, (c'.context a).clusterNodes.map Monitor.face = (c.context a).clusterNodes.map Monitor.face

/-- What the faces tell is the same. -/
theorem SameFaces.exists_iff (h : c.SameFaces c') (P : Bytes × List Bytes × List Message → Prop)
    (a : Bytes) : (∃ m ∈ (c'.context a).clusterNodes, P m.face) ↔
      ∃ m ∈ (c.context a).clusterNodes, P m.face := by
  have hmap : ∀ nodes : List Monitor,
      (∃ m ∈ nodes, P m.face) ↔ ∃ face ∈ nodes.map Monitor.face, P face := by simp
  rw [hmap, hmap, h a]

/-- The abstract state depends on the faces of the monitors only. -/
theorem SameFaces.membership_eq (h : c.SameFaces c') (hphase : c'.phase = c.phase)
    (hregistry : c'.registry = c.registry) (hhistory : c'.history = c.history) :
    c'.membership = c.membership := by
  ext1
  · ext a b
    simpa [membership, ClusterPluginContext.names, Monitor.face] using
      h.exists_iff (fun face => face.1 = b) a
  · ext a x
    exact h.exists_iff (fun face => face.1 = x ∧ monitorTopic ∈ face.2.1) a
  · ext a x b
    exact h.exists_iff (fun face => face.1 = x ∧ ∃ message ∈ face.2.2, message.payload = b) a
  · exact hphase
  · exact hregistry
  · exact hhistory

/-- A change of one plugin that keeps the faces keeps all faces. -/
theorem sameFaces_update {a : Bytes} {ctx : ClusterPluginContext}
    (h : ctx.clusterNodes.map Monitor.face = (c.context a).clusterNodes.map Monitor.face) :
    c.SameFaces (c.update a ctx) := by
  intro b
  rw [update_context]
  split
  case isTrue hb => exact hb ▸ h
  case isFalse => rfl

/-- A change of one monitor that keeps its face keeps all faces. -/
theorem sameFaces_modify {a x : Bytes} {f : Monitor → Monitor}
    (hf : ∀ m ∈ (c.context a).clusterNodes, m.name = x → (f m).face = m.face) :
    c.SameFaces (c.modify a x f) :=
  sameFaces_update (ClusterPluginContext.faces_modify hf)

/-- The monitor topic is the only one that is subscribed. -/
def OnlyMonitorTopic (c : Cluster) : Prop :=
  ∀ a, ∀ m ∈ (c.context a).clusterNodes, ∀ topic ∈ m.subscriptions, topic = monitorTopic

/-- The subscriptions are part of the faces. -/
theorem SameFaces.onlyMonitorTopic (h : c.SameFaces c') (hc : c.OnlyMonitorTopic) :
    c'.OnlyMonitorTopic := by
  intro a m hm topic htopic
  obtain ⟨m', hm', htopic'⟩ := (h.exists_iff (fun face => topic ∈ face.2.1) a).mp ⟨m, hm, htopic⟩
  exact hc a m' hm' topic htopic'

/-- A change of one monitor that keeps its face is silent. -/
theorem step_modify {a x : Bytes} {f : Monitor → Monitor}
    (hf : ∀ m ∈ (c.context a).clusterNodes, m.name = x → (f m).face = m.face) :
    c.membership.Step (c.modify a x f).membership := by
  rw [(sameFaces_modify hf).membership_eq rfl rfl rfl]
  exact .silent

/-- The monitor of `a` for `x` subscribes to the monitor topic. -/
theorem step_subscribe {a x : Bytes} (h : x ∈ (c.context a).names) :
    c.membership.Step { c.modify a x fun m =>
      { m with subscriptions := m.subscriptions ++ [monitorTopic] } with
        history := c.history ++ [Event.subscribed a x] }.membership := by
  have hknows : c.membership.knows a x := h
  convert Membership.Step.subscribe a x hknows using 1
  ext1
  · ext b y
    simp only [membership, modify_context]
    split
    case isTrue hb =>
      subst hb
      rw [ClusterPluginContext.names_modify]
      exact fun _ => rfl
    case isFalse => rfl
  · ext b y
    simp only [membership, modify_context]
    split
    case isTrue hb =>
      subst hb
      rw [ClusterPluginContext.exists_modify]
      -- There is a monitor for `x`, which is subscribed from now on.
      obtain ⟨m, hm, hname⟩ := List.mem_map.mp h
      grind
    case isFalse hb => simp [hb]
  · ext b y z
    simp only [membership, modify_context]
    split
    case isTrue hb =>
      subst hb
      rw [ClusterPluginContext.exists_modify]
      grind
    case isFalse => rfl
  · rfl
  · rfl
  · rfl

/-- The broker of `x` sends a message: a name goes to the subscribers of the monitor topic. -/
theorem step_broadcast (hc : c.OnlyMonitorTopic) (x : Bytes) (message : Message) :
    c.membership.Step (c.broadcast x message).membership := by
  by_cases htopic : message.topic = monitorTopic
  · convert Membership.Step.announce message.payload x using 1
    ext1
    · ext b y
      simp only [membership, broadcast]
      rw [ClusterPluginContext.names_modify fun m => by split <;> rfl]
    · ext b y
      simp only [membership, broadcast]
      rw [ClusterPluginContext.exists_modify]
      grind
    · ext b y z
      simp only [membership, broadcast]
      rw [ClusterPluginContext.exists_modify]
      grind
    · rfl
    · rfl
    · simp [membership, broadcast, htopic]
  · -- nobody is subscribed to any other topic
    have hnone : ∀ a, ∀ m ∈ (c.context a).clusterNodes, message.topic ∉ m.subscriptions :=
      fun a m hm hmem => htopic (hc a m hm _ hmem)
    have hsame : (c.broadcast x message).membership = c.membership := by
      refine SameFaces.membership_eq (fun a => ClusterPluginContext.faces_modify fun m hm _ => ?_)
        rfl rfl ?_
      · rw [if_neg (hnone a m hm)]
      · simp [broadcast, htopic]
    exact hsame ▸ .silent

/-- The names of a reply are taken over. -/
theorem step_takeOver (hc : c.WellFormed md5 apiJoin) {a : Bytes} {nodes : List Bytes}
    (h : c.membership.phase a = .answered nodes) :
    c.membership.Step { c.update a ((c.context a).maintainProxyInstances md5 nodes) with
      phase := Function.update c.phase a (.joined nodes) }.membership := by
  convert Membership.Step.takeOver a nodes h using 1
  ext1
  · ext b y
    simp only [membership, update_context]
    split
    case isTrue hb =>
      subst hb
      rw [ClusterPluginContext.mem_names_maintainProxyInstances, hc.nodeName]
      grind
    case isFalse hb => simp [hb]
  · ext b y
    simp only [membership, update_context]
    split
    case isTrue hb =>
      subst hb
      -- The new monitors are not subscribed, and have nothing to deliver.
      exact ClusterPluginContext.exists_maintainProxyInstances fun name => by simp [Monitor.start]
    case isFalse => rfl
  · ext b y z
    simp only [membership, update_context]
    split
    case isTrue hb =>
      subst hb
      exact ClusterPluginContext.exists_maintainProxyInstances fun name => by simp [Monitor.start]
    case isFalse => rfl
  · rfl
  · rfl
  · rfl

/-- A broker receives a publish: the copies that are queued for it are silent. -/
theorem step_receivePublish (hc : c.OnlyMonitorTopic) {x clientId topic payload : Bytes}
    {origin : Option Nat} {qos : Int32} {retain : Bool}
    (h : c.receivePublish x origin clientId topic payload qos retain = some c') :
    c.membership.Step c'.membership := by
  obtain ⟨ctx, hctx, rfl⟩ := Option.map_eq_some_iff.mp h
  have hfaces : c.SameFaces (c.update x ctx) :=
    sameFaces_update (ClusterPluginContext.faces_mosqProxyPass hctx)
  rw [← hfaces.membership_eq rfl rfl rfl]
  exact step_broadcast (hfaces.onlyMonitorTopic hc) x ⟨topic, payload⟩

/-- A broker processes a packet of a monitor. -/
theorem step_receivePacket (hc : c.OnlyMonitorTopic) {a x : Bytes} {m : Monitor} {packet : Tagged}
    (hx : x ∈ (c.context a).names) (hpacket : packet.command.OnMonitorTopic)
    (h : c.receivePacket a x m packet = some c') : c.membership.Step c'.membership := by
  unfold receivePacket at h
  cases hcommand : packet.command with
  | publish id topic payload qos retain =>
    rw [hcommand] at h
    exact step_receivePublish hc h
  | subscribe id topic qos =>
    rw [hcommand] at h hpacket
    obtain rfl : topic = monitorTopic := hpacket
    exact (Option.some.inj h) ▸ step_subscribe hx
  | unsubscribe id topic =>
    rw [hcommand] at hpacket
    exact hpacket.elim

/-- The first message of the monitor of `a` for `x` arrives. -/
theorem step_deliver (hc : c.WellFormed md5 apiJoin) {a x : Bytes} {m : Monitor}
    {message : Message} {inbox : List Message} (hm : (c.context a).monitor? x = some m)
    (hinbox : m.inbox = message :: inbox) :
    c.membership.Step (c.update a (((c.context a).modify x fun m =>
      { m with inbox := inbox }).onMessage md5 message)).membership := by
  set ctx := (c.context a).modify x fun m => { m with inbox := inbox } with hctx
  have hmem : m ∈ (c.context a).clusterNodes := List.mem_of_find?_eq_some hm
  have hname : m.name = x := by simpa using List.find?_some hm
  have hunique : ∀ m' ∈ (c.context a).clusterNodes, m'.name = x → m' = m := fun m' hm' hname =>
    ClusterPluginContext.eq_of_monitor? (hc.nodup a) hm hm' hname
  have htopic : message.topic = monitorTopic :=
    (hc.monitors a m hmem).inbox message (hinbox ▸ List.mem_cons_self)
  have hnames : ctx.names = (c.context a).names := ClusterPluginContext.names_modify fun _ => rfl
  have hnode : ctx.nodeName = a := hc.nodeName a
  have hflight : c.membership.inFlight a x message.payload :=
    ⟨m, hmem, hname, message, hinbox ▸ List.mem_cons_self, rfl⟩
  have hexists : ∀ P : Monitor → Prop, (∀ name, ¬ P (Monitor.start md5 name)) →
      ((∃ m ∈ (ctx.onMessage md5 message).clusterNodes, P m) ↔
        ∃ m ∈ (c.context a).clusterNodes,
          P (if m.name = x then { m with inbox := inbox } else m)) := fun P hP => by
    rw [ClusterPluginContext.exists_onMessage htopic hP, hctx, ClusterPluginContext.exists_modify]
  -- what is in flight afterwards is what the cluster says
  convert Membership.Step.deliver a x message.payload hflight
    (c.update a (ctx.onMessage md5 message)).membership.inFlight ?_ ?_ using 1
  · ext1
    · ext b y
      simp only [membership, update_context]
      split
      case isTrue hb =>
        subst hb
        rw [ClusterPluginContext.mem_names_onMessage htopic, hnames, hnode]
        grind
      case isFalse hb => simp [hb]
    · -- the new monitor is not subscribed, and the other ones are as they were
      ext b y
      simp only [membership, update_context]
      split
      case isTrue hb =>
        subst hb
        rw [hexists _ fun name => by simp [Monitor.start]]
        grind
      case isFalse => rfl
    · rfl
    · rfl
    · rfl
    · rfl
  · intro b y z
    simp only [membership, update_context]
    split
    case isTrue hb =>
      subst hb
      rw [hexists _ fun name => by simp [Monitor.start]]
      grind
    case isFalse => exact id
  · -- only the message that has arrived may be gone
    intro b y z
    simp only [membership, update_context]
    split
    case isTrue hb =>
      subst hb
      rw [hexists _ fun name => by simp [Monitor.start]]
      grind
    case isFalse => exact .inl

/-- Every step of the cluster is a step of the membership. -/
theorem membership_step (hc : c.WellFormed md5 apiJoin) (h : c.next md5 l = some c') :
    c.membership.Step c'.membership := by
  have hmonitorTopic : c.OnlyMonitorTopic := fun a m hm => (hc.monitors a m hm).subscriptions
  cases l with
  | register a =>
    obtain ⟨⟨hphase, -⟩, h⟩ := Option.ite_none_right_eq_some.mp h
    exact (Option.some.inj h) ▸ .register a hphase
  | answer a =>
    obtain ⟨hphase, h⟩ := Option.ite_none_right_eq_some.mp h
    exact (Option.some.inj h) ▸ .answer a hphase
  | takeOver a =>
    obtain ⟨nodes, hphase, rfl⟩ := next_takeOver h
    exact step_takeOver hc hphase
  | connect a x =>
    obtain ⟨m, m₂, hm, -, hconnect, rfl⟩ := next_connect h
    obtain ⟨m₁, hm₁, hm₂⟩ := Option.bind_eq_some_iff.mp hconnect
    refine step_modify fun m' hm' hname => ?_
    obtain rfl := ClusterPluginContext.eq_of_monitor? (hc.nodup a) hm hm' hname
    rw [ClusterPluginContext.face_request hm₂, ClusterPluginContext.face_request hm₁]
    rfl
  | run a x ok =>
    obtain ⟨m, q, commands, hm, hcommands, rfl⟩ := next_run h
    exact step_modify fun _ _ _ => rfl
  | receive a x =>
    obtain ⟨m, packet, uplink, hm, huplink, h⟩ := next_receive h
    -- The uplink is not part of a face.
    have hfaces : c.SameFaces (c.modify a x fun m => { m with uplink := uplink }) :=
      sameFaces_modify fun _ _ _ => rfl
    have hmem : m ∈ (c.context a).clusterNodes := List.mem_of_find?_eq_some hm
    have hname : m.name = x := by simpa using List.find?_some hm
    rw [← hfaces.membership_eq rfl rfl rfl]
    refine step_receivePacket (hfaces.onlyMonitorTopic hmonitorTopic) ?_ ?_ h
    · rw [modify_context, if_pos rfl, ClusterPluginContext.names_modify]
      · exact List.mem_map.mpr ⟨m, hmem, hname⟩
      · exact fun _ => rfl
    · exact (hc.monitors a m hmem).uplink packet (huplink ▸ List.mem_cons_self)
  | deliver a x =>
    obtain ⟨m, message, inbox, hm, hinbox, rfl⟩ := next_deliver h
    exact step_deliver hc hm hinbox
  | clientPublish x clientId topic payload qos retain =>
    exact step_receivePublish (c := { c with published := c.published + 1 }) hmonitorTopic h

/-- The membership of a cluster reflects the history. -/
theorem sound_of_reachable (h : (cluster md5 apiJoin).Reachable c) : c.membership.Sound := by
  have hinvariant : c.WellFormed md5 apiJoin ∧ c.membership.Sound := by
    refine TransitionSystem.Reachable.invariant (T := cluster md5 apiJoin)
      (P := fun c => c.WellFormed md5 apiJoin ∧ c.membership.Sound)
      ⟨wellFormed_of_reachable .refl, ?_⟩
      (fun _ _ _ hs hnext => ⟨hs.1.step hnext, hs.2.step (membership_step hs.1 hnext)⟩) h
    constructor <;>
      simp [cluster, start, membership, ClusterPluginContext.names, Before, HearsOf]
  exact hinvariant.2

/-! ## Quiescent states -/

/-- The node `a` has taken over the names of its reply. -/
def Joined (c : Cluster) (a : Bytes) : Prop := ∃ nodes, c.phase a = .joined nodes

/-- The monitors of the node `a` are connected, their queues are empty, and no packet and no message
is on its way. -/
def Quiet (c : Cluster) (a : Bytes) : Prop :=
  ∀ m ∈ (c.context a).clusterNodes,
    m.connected = true ∧ m.commands = [] ∧ m.uplink = [] ∧ m.inbox = []

instance (c : Cluster) (a : Bytes) : Decidable (c.Quiet a) :=
  inferInstanceAs (Decidable (∀ m ∈ (c.context a).clusterNodes, _))

/-- Nothing is going on. -/
def Quiescent (c : Cluster) : Prop := ∀ a, c.Quiet a

/-- Any two nodes that have joined have each other in their lists. -/
def Converged (c : Cluster) : Prop :=
  ∀ a b, c.Joined a → c.Joined b → a ≠ b → b ∈ (c.context a).names

/-- Only registered nodes have monitors, so that the others are quiet. -/
theorem quiescent_of_registry (h : (cluster md5 apiJoin).Reachable c)
    (hquiet : ∀ a ∈ c.registry, c.Quiet a) : c.Quiescent := by
  intro a m hm
  have hs := sound_of_reachable h
  obtain ⟨nodes, hjoined⟩ := hs.joined a m.name (List.mem_map_of_mem hm)
  refine hquiet a ?_ m hm
  by_contra hidle
  simp [(hs.idle a).mpr hidle] at hjoined

/-- In a quiescent state a node that has joined knows exactly the nodes it has heard of. -/
theorem mem_names_iff_hearsOf (h : (cluster md5 apiJoin).Reachable c) (hq : c.Quiescent)
    {a b : Bytes} (ha : c.Joined a) (hab : a ≠ b) :
    b ∈ (c.context a).names ↔ HearsOf c.history a b := by
  have hs := sound_of_reachable h
  constructor
  · exact fun hmem => (hs.knows a b hmem).2
  · intro hhears
    rcases hs.complete a b hhears with
      rfl | hmem | ⟨nodes, hphase, -⟩ | ⟨x, m, hm, -, message, hmem, -⟩
    · exact absurd rfl hab
    · exact hmem
    · obtain ⟨nodes', hjoined⟩ := ha
      exact absurd (hjoined.symm.trans hphase) (by simp)
    · rw [(hq a m hm).2.2.2] at hmem
      cases hmem

end Cluster

/-- In every quiescent state, the lists of the nodes that have joined are complete if and only if
each of them has heard of each other one: its reply was made after the other one was registered, or
it was subscribed on some broker before the other one announced itself there. -/
theorem converged_iff_hearsOf {c : Cluster} (h : (cluster md5 apiJoin).Reachable c)
    (hq : c.Quiescent) :
    c.Converged ↔ ∀ a b, c.Joined a → c.Joined b → a ≠ b → HearsOf c.history a b :=
  forall_congr' fun _ => forall_congr' fun _ => forall_congr' fun ha => forall_congr' fun _ =>
    forall_congr' fun hab => Cluster.mem_names_iff_hearsOf h hq ha hab

/-- Two nodes that register before either reply is made. -/
def joinTogether : List ClusterLabel :=
  [.register (bytes "a"), .register (bytes "b"), .answer (bytes "a"), .answer (bytes "b"),
    .takeOver (bytes "a"), .takeOver (bytes "b")]

/-- The monitor of `a` for `x` connects, subscribes and announces `a`, and the name comes back. -/
def introduce (a x : Bytes) : List ClusterLabel :=
  [.connect a x, .run a x true, .run a x true, .receive a x, .receive a x, .deliver a x]

/-- Two nodes that register before either reply is made know each other. -/
theorem converged_iff_hearsOf_two_nodes :
    ∃ c, (cluster md5Abc joinUrl).exec (.start joinUrl) (joinTogether ++
        introduce (bytes "a") (bytes "b") ++ introduce (bytes "b") (bytes "a")) = some c ∧
      c.Quiescent ∧
      (c.Converged ↔ ∀ a b, c.Joined a → c.Joined b → a ≠ b → HearsOf c.history a b) := by
  obtain ⟨c, hexec, hquiet⟩ : ∃ c, (cluster md5Abc joinUrl).exec (.start joinUrl) (joinTogether ++
      introduce (bytes "a") (bytes "b") ++ introduce (bytes "b") (bytes "a")) = some c ∧
      decide (∀ a ∈ c.registry, c.Quiet a) := Option.any_eq_true _ _ |>.mp (by decide)
  have hreachable : (cluster md5Abc joinUrl).Reachable c :=
    TransitionSystem.reachable_of_exec hexec
  have hq : c.Quiescent := Cluster.quiescent_of_registry hreachable (of_decide_eq_true hquiet)
  exact ⟨c, hexec, hq, converged_iff_hearsOf hreachable hq⟩

/-- The second of two nodes that join one after the other knows the first one, which does not come
to know it. -/
theorem not_converged_two_nodes :
    ¬ ∀ c, (cluster md5Abc joinUrl).Reachable c → c.Quiescent → c.Converged := by
  intro hconverged
  obtain ⟨c, hexec, hend⟩ : ∃ c, (cluster md5Abc joinUrl).exec (.start joinUrl)
      (joinInTurn [bytes "a", bytes "b"] ++ introduce (bytes "b") (bytes "a")) = some c ∧
      decide ((∀ a ∈ c.registry, c.Quiet a) ∧ c.phase (bytes "a") = .joined [bytes "a"] ∧
        c.phase (bytes "b") = .joined [bytes "a", bytes "b"] ∧
        bytes "b" ∉ (c.context (bytes "a")).names) := Option.any_eq_true _ _ |>.mp (by decide)
  obtain ⟨hquiet, ha, hb, hunknown⟩ := of_decide_eq_true hend
  have hreachable : (cluster md5Abc joinUrl).Reachable c :=
    TransitionSystem.reachable_of_exec hexec
  have hq : c.Quiescent := Cluster.quiescent_of_registry hreachable hquiet
  exact hunknown (hconverged c hreachable hq _ _ ⟨_, ha⟩ ⟨_, hb⟩ (by decide))

/-! ## Nodes that join one after another -/

/-- A node registers only when all nodes that have registered before it have joined. -/
def JoinsInTurn (c : Cluster) : ClusterLabel → Prop
  | .register _ => ∀ a ∈ c.registry, c.Joined a
  | _ => True

namespace Cluster

variable {c c' : Cluster} {l : ClusterLabel} {a : Bytes}

instance : Decidable (c.Joined a) :=
  match h : c.phase a with
  | .joined nodes => isTrue ⟨nodes, h⟩
  | .idle | .registered | .answered _ => isFalse fun ⟨nodes, hnodes⟩ => by simp [h] at hnodes

instance : Decidable (JoinsInTurn c l) := by
  cases l <;> unfold JoinsInTurn <;> infer_instance

/-- What the plugins and the brokers do leaves the registry alone. -/
theorem registry_receivePublish {x clientId topic payload : Bytes} {origin : Option Nat}
    {qos : Int32} {retain : Bool}
    (h : c.receivePublish x origin clientId topic payload qos retain = some c') :
    c'.registry = c.registry := by
  obtain ⟨ctx, -, rfl⟩ := Option.map_eq_some_iff.mp h
  rfl

/-- Names are registered by registrations only. -/
theorem registry_eq_of_next (h : c.next md5 l = some c') (hl : ∀ a, l ≠ .register a) :
    c'.registry = c.registry := by
  cases l with
  | register a => exact absurd rfl (hl a)
  | answer a =>
    obtain ⟨-, h⟩ := Option.ite_none_right_eq_some.mp h
    exact (Option.some.inj h) ▸ rfl
  | takeOver a =>
    obtain ⟨nodes, -, rfl⟩ := next_takeOver h
    rfl
  | connect a x =>
    obtain ⟨m, m', -, -, -, rfl⟩ := next_connect h
    rfl
  | run a x ok =>
    obtain ⟨m, q, commands, -, -, rfl⟩ := next_run h
    rfl
  | receive a x =>
    obtain ⟨m, packet, uplink, -, -, h⟩ := next_receive h
    unfold receivePacket at h
    split at h
    · exact (registry_receivePublish h).trans rfl
    · rw [← Option.some.inj h]
      split <;> rfl
    · exact (Option.some.inj h) ▸ rfl
  | deliver a x =>
    obtain ⟨m, message, inbox, -, -, rfl⟩ := next_deliver h
    rfl
  | clientPublish x clientId topic payload qos retain =>
    exact (registry_receivePublish (c := { c with published := c.published + 1 }) h).trans rfl

/-- Where nodes join one after another, the first one knows nobody. -/
theorem firstAlone_of_reachable
    (h : ((cluster md5 apiJoin).restrict JoinsInTurn).Reachable c) :
    c.membership.FirstAlone := by
  have hinvariant : (c.WellFormed md5 apiJoin ∧ c.membership.Sound) ∧ c.membership.FirstAlone := by
    refine TransitionSystem.Reachable.invariant_restrict (T := cluster md5 apiJoin)
      (P := fun c => (c.WellFormed md5 apiJoin ∧ c.membership.Sound) ∧ c.membership.FirstAlone)
      ⟨⟨wellFormed_of_reachable .refl, sound_of_reachable .refl⟩, ?_⟩ ?_ h
    · constructor <;> simp [cluster, start, membership]
    · rintro s l s' ⟨⟨hwell, hs⟩, hfirst⟩ hturn hnext
      have hnext : s.next md5 l = some s' := hnext
      have hstep := membership_step hwell hnext
      refine ⟨⟨hwell.step hnext, hs.step hstep⟩, hfirst.step hs hstep fun hne => ?_⟩
      cases l with
      | register a => exact hturn
      | _ => exact absurd (registry_eq_of_next hnext (by simp)) hne
  exact hinvariant.2

end Cluster

/-- Where nodes join one after another, the lists are complete only as long as at most one node has
joined: the first one never hears of another one. -/
theorem converged_iff_of_joinsInTurn {c : Cluster}
    (h : ((cluster md5 apiJoin).restrict JoinsInTurn).Reachable c) :
    c.Converged ↔ ∀ a b, c.Joined a → c.Joined b → a = b := by
  have hs := Cluster.sound_of_reachable h.of_restrict
  have hfirst := Cluster.firstAlone_of_reachable h
  have hregistered : ∀ a, c.Joined a → a ∈ c.registry := by
    rintro a ⟨nodes, hphase⟩
    by_contra hmem
    have hidle : c.phase a = .idle := (hs.idle a).mpr hmem
    simp [hidle] at hphase
  constructor
  · intro hconverged a b ha hb
    cases hregistry : c.registry with
    | nil => exact absurd (hregistered a ha) (by simp [hregistry])
    | cons f rest =>
      -- The first node knows nobody, so that a second one is missing in its list.
      have hsecond : ∀ b, c.Joined b → b ≠ f → False := by
        intro b hb hne
        have hmem : b ∈ rest := by simpa [hregistry, hne] using hregistered b hb
        have hf : c.Joined f := hfirst.joined f rest hregistry (List.ne_nil_of_mem hmem)
        exact hfirst.knows f rest hregistry b (hconverged f b hf hb hne.symm)
      by_contra hab
      rcases eq_or_ne a f with rfl | ha'
      · exact hsecond b hb (Ne.symm hab)
      · exact hsecond a ha ha'
  · intro hone a b ha hb hab
    exact absurd (hone a b ha hb) hab

end MosqCluster
