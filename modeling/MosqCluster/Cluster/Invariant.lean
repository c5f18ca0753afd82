import MosqCluster.Cluster.Model
import Mathlib.Data.List.Forall2
import Mathlib.Data.List.Nodup
import Mathlib.Logic.Relation

/-!
# What a step does to the monitors

A step of the cluster changes the monitors of a node one by one, by a few elementary steps, and
starts new monitors for names that are not in the list yet. Whatever the elementary steps preserve
is therefore an invariant of the cluster.

## Main definitions

* `Monitor.Step`: the elementary steps;
* `ClusterPluginContext.Evolves`: finitely many of them on each monitor, and new monitors;
* `Cluster.WellFormed`: the invariant.

## Main results

* `Cluster.next_evolves`: what a step of the cluster does to the monitors;
* `wellFormed_of_reachable`: the invariant holds in every reachable state.
-/

namespace MosqCluster

/-- One elementary change of a monitor. The commands it queues copy a publish in `origins`. -/
inductive Monitor.Step (origins : Option Nat → Prop) (m : Monitor) : Monitor → Prop
  /-- The connection is accepted. -/
  | connected : Step origins m { m with connected := true }
  /-- The plugin or `on_connect` calls `Publish`. -/
  | publish {origin : Option Nat} {topic payload : Bytes} {payloadlen qos : Int32} {retain : Bool}
      {m' : Monitor} (horigin : origins origin)
      (h : m.request origin (.publish topic payload payloadlen qos retain) = some m') :
      Step origins m m'
  /-- `on_connect` calls `Subscribe`. -/
  | subscribe {m' : Monitor} (horigin : origins none)
      (h : m.request none (.subscribe monitorTopic 1) = some m') : Step origins m m'
  /-- A command is handed to libmosquitto or dropped. -/
  | run {q : Tagged} {commands : List Tagged} (ok : Bool) (h : m.commands = q :: commands) :
      Step origins m { m with
        commands := commands
        uplink := if ok then m.uplink ++ [q] else m.uplink }
  /-- The broker processes a packet. -/
  | packet {packet : Tagged} {uplink : List Tagged} (h : m.uplink = packet :: uplink)
      (subscriptions : List Bytes)
      (hsub : ∀ topic ∈ subscriptions, topic ∈ m.subscriptions ∨
        ∃ id qos, packet.command = .subscribe id topic qos) :
      Step origins m { m with uplink := uplink, subscriptions := subscriptions }
  /-- The broker sends a message. -/
  | message {message : Message} (h : message.topic ∈ m.subscriptions) :
      Step origins m { m with inbox := m.inbox ++ [message] }
  /-- A message arrives. -/
  | arrival {message : Message} {inbox : List Message} (h : m.inbox = message :: inbox) :
      Step origins m { m with inbox := inbox }

/-- Finitely many elementary changes of a monitor. -/
def Monitor.Steps (origins : Option Nat → Prop) : Monitor → Monitor → Prop :=
  Relation.ReflTransGen (Monitor.Step origins)

/-- The plugin of a node changes its monitors step by step and starts monitors for the names
`new`. -/
structure ClusterPluginContext.EvolvesTo (md5 : Bytes → Vector UInt8 16)
    (origins : Option Nat → Prop) (ctx ctx' : ClusterPluginContext) (new : List Bytes) : Prop where
  /-- The name of the node stays. -/
  nodeName : ctx'.nodeName = ctx.nodeName
  /-- The configuration stays. -/
  apiJoin : ctx'.apiJoin = ctx.apiJoin
  /-- Each monitor changes step by step, also one that has just been started. -/
  monitors : List.Forall₂ (Monitor.Steps origins)
    (ctx.clusterNodes ++ new.map (Monitor.start md5)) ctx'.clusterNodes
  /-- The new names are pairwise different. -/
  nodup : new.Nodup
  /-- They are not in the list yet. -/
  fresh : ∀ name ∈ new, name ∉ ctx.names
  /-- A node never starts a monitor for itself. -/
  other : ∀ name ∈ new, name ≠ ctx.nodeName

/-- Finitely many elementary changes, and new monitors. -/
def ClusterPluginContext.Evolves (md5 : Bytes → Vector UInt8 16) (origins : Option Nat → Prop)
    (ctx ctx' : ClusterPluginContext) : Prop := ∃ new, ctx.EvolvesTo md5 origins ctx' new

variable {md5 : Bytes → Vector UInt8 16} {origins : Option Nat → Prop}

/-- A request of a monitor touches its queue only. -/
theorem Monitor.request_eq {m m' : Monitor} {origin : Option Nat} {r : Request}
    (h : m.request origin r = some m') :
    ∃ command, r.command (m.commandId + 1).toInt32 = some command ∧
      m' = { m with
        commandId := m.commandId + 1
        commands := m.commands ++ [⟨origin, command⟩]
        pushed := m.pushed ++ [⟨origin, command⟩] } := by
  obtain ⟨command, hcommand, rfl⟩ := Option.map_eq_some_iff.mp h
  exact ⟨command, hcommand, rfl⟩

/-- An elementary change keeps the name of the peer and the client id. -/
theorem Monitor.Step.name_eq {m m' : Monitor} (h : m.Step origins m') :
    m'.name = m.name ∧ m'.clientId = m.clientId := by
  cases h with
  | publish _ h | subscribe _ h =>
    obtain ⟨command, -, rfl⟩ := Monitor.request_eq h
    exact ⟨rfl, rfl⟩
  | _ => exact ⟨rfl, rfl⟩

/-- Elementary changes keep the name of the peer. -/
theorem Monitor.Steps.name_eq {m m' : Monitor} (h : m.Steps origins m') : m'.name = m.name := by
  induction h with
  | refl => rfl
  | tail _ hstep ih => exact hstep.name_eq.1.trans ih

/-- Elementwise changes compose. -/
private theorem forall₂_steps_trans {l₁ l₂ l₃ : List Monitor}
    (h : List.Forall₂ (Monitor.Steps origins) l₁ l₂)
    (h' : List.Forall₂ (Monitor.Steps origins) l₂ l₃) :
    List.Forall₂ (Monitor.Steps origins) l₁ l₃ := by
  induction h generalizing l₃ with
  | nil => exact h'
  | cons hsteps _ ih =>
    cases h' with
    | cons hsteps' h' => exact .cons (hsteps.trans hsteps') (ih h')

/-- Whatever has become of the monitors of a list, each comes from one of them. -/
theorem exists_of_mem_forall₂ {R : Monitor → Monitor → Prop} {l l' : List Monitor}
    (h : List.Forall₂ R l l') {m' : Monitor} (hm' : m' ∈ l') : ∃ m ∈ l, R m m' := by
  induction h with
  | nil => cases hm'
  | cons hsteps _ ih =>
    rcases List.mem_cons.mp hm' with rfl | hm'
    · exact ⟨_, List.mem_cons_self, hsteps⟩
    · obtain ⟨m, hm, hsteps⟩ := ih hm'
      exact ⟨m, List.mem_cons_of_mem _ hm, hsteps⟩

namespace ClusterPluginContext

variable {ctx ctx' ctx'' : ClusterPluginContext} {new new' : List Bytes}

/-- The names of the peers grow by the new ones. -/
theorem EvolvesTo.names_eq (h : ctx.EvolvesTo md5 origins ctx' new) :
    ctx'.names = ctx.names ++ new := by
  have hnames : (ctx.clusterNodes ++ new.map (Monitor.start md5)).map Monitor.name =
      ctx'.clusterNodes.map Monitor.name := by
    refine List.forall₂_eq_eq_eq ▸ List.forall₂_map_left_iff.mpr (List.forall₂_map_right_iff.mpr ?_)
    exact h.monitors.imp fun m m' hsteps => hsteps.name_eq.symm
  have hstart : Monitor.name ∘ Monitor.start md5 = id := rfl
  simpa [names, hstart] using hnames.symm

/-- Changes compose. -/
theorem Evolves.trans (h : ctx.Evolves md5 origins ctx') (h' : ctx'.Evolves md5 origins ctx'') :
    ctx.Evolves md5 origins ctx'' := by
  obtain ⟨new, h⟩ := h
  obtain ⟨new', h'⟩ := h'
  have hfresh : ∀ name ∈ new', name ∉ ctx.names ∧ name ∉ new := by
    intro name hname
    have := h'.fresh name hname
    rw [h.names_eq, List.mem_append, not_or] at this
    exact this
  refine ⟨new ++ new', h'.nodeName.trans h.nodeName, h'.apiJoin.trans h.apiJoin, ?_, ?_, ?_, ?_⟩
  · -- The monitors that only the second change starts do nothing in the first.
    have hrefl : List.Forall₂ (Monitor.Steps origins) (new'.map (Monitor.start md5))
        (new'.map (Monitor.start md5)) := List.forall₂_same.mpr fun _ _ => .refl
    rw [List.map_append, ← List.append_assoc]
    exact forall₂_steps_trans (List.rel_append h.monitors hrefl) h'.monitors
  · refine List.nodup_append.mpr ⟨h.nodup, h'.nodup, ?_⟩
    rintro name hname _ hname' rfl
    exact (hfresh name hname').2 hname
  · intro name hname
    rcases List.mem_append.mp hname with hname | hname
    · exact h.fresh name hname
    · exact (hfresh name hname).1
  · intro name hname
    rcases List.mem_append.mp hname with hname | hname
    · exact h.other name hname
    · exact h.nodeName ▸ h'.other name hname

/-- Changes of the monitors alone. -/
theorem Evolves.of_monitors {nodes : List Monitor}
    (h : List.Forall₂ (Monitor.Steps origins) ctx.clusterNodes nodes) :
    ctx.Evolves md5 origins { ctx with clusterNodes := nodes } :=
  ⟨[], rfl, rfl, by simpa using h, List.nodup_nil, by simp, by simp⟩

/-- No change. -/
theorem Evolves.refl (ctx : ClusterPluginContext) : ctx.Evolves md5 origins ctx :=
  .of_monitors (List.forall₂_same.mpr fun _ _ => .refl)

/-- A change of the monitor of one peer. -/
theorem Evolves.modify {x : Bytes} {f : Monitor → Monitor}
    (hf : ∀ m ∈ ctx.clusterNodes, m.name = x → m.Steps origins (f m)) :
    ctx.Evolves md5 origins (ctx.modify x f) := by
  refine .of_monitors (List.forall₂_map_right_iff.mpr (List.forall₂_same.mpr fun m hm => ?_))
  by_cases hname : m.name = x
  · simpa [hname] using hf m hm hname
  · simpa [hname] using .refl

/-- `MosqProxyPass` queues commands. -/
theorem Evolves.mosqProxyPass {origin : Option Nat} {clientId topic payload : Bytes}
    {payloadlen : Int64} {qos : Int32} {retain : Bool}
    (horigin : ¬ bytes "mosqcluster" <+: cString clientId → origins origin)
    (h : ctx.mosqProxyPass origin clientId topic payload payloadlen qos retain = some ctx') :
    ctx.Evolves md5 origins ctx' := by
  have hall : origins origin → ∀ (nodes nodes' : List Monitor),
      publishAll origin (.publish (cString topic) payload payloadlen.toInt32 qos retain) nodes =
        some nodes' → List.Forall₂ (Monitor.Steps origins) nodes nodes' := by
    intro horigin nodes
    induction nodes with
    | nil => simp [publishAll]
    | cons m ms ih =>
      intro nodes' h
      obtain ⟨m', hm', h⟩ := Option.bind_eq_some_iff.mp h
      obtain ⟨ms', hms', rfl⟩ := Option.map_eq_some_iff.mp h
      exact .cons (.single (.publish horigin hm')) (ih ms' hms')
  unfold ClusterPluginContext.mosqProxyPass at h
  split_ifs at h with hjoin hprefix
  · exact (Option.some.inj h) ▸ .refl ctx
  · exact (Option.some.inj h) ▸ .refl ctx
  · obtain ⟨nodes, hnodes, rfl⟩ := Option.map_eq_some_iff.mp h
    exact .of_monitors (hall (horigin hprefix) _ _ hnodes)

/-- `MaintainProxyInstances` starts a monitor for a name that is not in the list. -/
theorem Evolves.maintainProxyInstance {name : Bytes} (hother : name ≠ ctx.nodeName) :
    ctx.Evolves md5 origins (ctx.maintainProxyInstance md5 name) := by
  unfold ClusterPluginContext.maintainProxyInstance
  split
  case isTrue h => exact .refl ctx
  case isFalse h =>
    refine ⟨[name], rfl, rfl, ?_, List.nodup_singleton name, ?_, by simpa using hother⟩
    · exact List.forall₂_same.mpr fun _ _ => .refl
    · simpa [names] using h

/-- `MaintainProxyInstances` starts monitors for the names that are not in the list. -/
theorem Evolves.maintainProxyInstances (nodes : List Bytes) (ctx : ClusterPluginContext) :
    ctx.Evolves md5 origins (ctx.maintainProxyInstances md5 nodes) := by
  unfold ClusterPluginContext.maintainProxyInstances
  induction nodes generalizing ctx with
  | nil => exact .refl ctx
  | cons name nodes ih =>
    rw [List.foldl_cons]
    split
    case isTrue h => exact ih ctx
    case isFalse h => exact (Evolves.maintainProxyInstance (Ne.symm h)).trans (ih _)

/-- `on_message` starts at most one monitor. -/
theorem Evolves.onMessage (message : Message) :
    ctx.Evolves md5 origins (ctx.onMessage md5 message) := by
  unfold ClusterPluginContext.onMessage
  split_ifs with htopic hname
  · exact .maintainProxyInstance hname
  · exact .refl ctx
  · exact .refl ctx

/-- The monitor of a peer is the only one with its name. -/
theorem eq_of_monitor? (hnodup : ctx.names.Nodup) {x : Bytes} {m m' : Monitor}
    (h : ctx.monitor? x = some m) (hm' : m' ∈ ctx.clusterNodes) (hname : m'.name = x) :
    m' = m := by
  have hm : m ∈ ctx.clusterNodes := List.mem_of_find?_eq_some h
  have hx : m.name = x := by simpa using List.find?_some h
  exact List.inj_on_of_nodup_map hnodup hm' hm (hname.trans hx.symm)

/-- Changes of the monitor of one peer that keep its name are one change. -/
theorem modify_modify {x : Bytes} {f g : Monitor → Monitor} (hf : ∀ m, (f m).name = m.name) :
    (ctx.modify x f).modify x g = ctx.modify x (g ∘ f) := by
  unfold modify
  simp only [List.map_map, mk.injEq, true_and]
  refine List.map_congr_left fun m _ => ?_
  by_cases hname : m.name = x <;> simp [hname, hf]

end ClusterPluginContext

namespace Cluster

variable {c c' : Cluster} {l : ClusterLabel}

@[simp]
theorem update_context {a b : Bytes} {ctx : ClusterPluginContext} :
    (c.update a ctx).context b = if b = a then ctx else c.context b := by
  simp [update, Function.update_apply]

@[simp]
theorem modify_context {a b x : Bytes} {f : Monitor → Monitor} :
    (c.modify a x f).context b = if b = a then (c.context a).modify x f else c.context b := by
  simp [modify]

/-- Changes of one monitor that keep its name are one change. -/
theorem modify_modify {a x : Bytes} {f g : Monitor → Monitor} (hf : ∀ m, (f m).name = m.name) :
    (c.modify a x f).modify a x g = c.modify a x (g ∘ f) := by
  simp [modify, update, ClusterPluginContext.modify_modify hf]

/-- A change of one plugin is a change of all plugins. -/
theorem evolves_update {a : Bytes} {ctx : ClusterPluginContext}
    (h : (c.context a).Evolves md5 origins ctx) (b : Bytes) :
    (c.context b).Evolves md5 origins ((c.update a ctx).context b) := by
  rw [update_context]
  split
  case isTrue hb => exact hb ▸ h
  case isFalse hb => exact .refl _

/-- A message is added to the inboxes of the subscribers. -/
theorem evolves_broadcast (c : Cluster) (x : Bytes) (message : Message) (b : Bytes) :
    (c.context b).Evolves md5 origins ((c.broadcast x message).context b) := by
  refine .modify fun m _ _ => ?_
  split
  case isTrue h => exact .single (.message h)
  case isFalse h => exact .refl

/-- A broker receives a publish: the plugin of its node may queue copies, and the subscribers get
the message. -/
theorem evolves_receivePublish {x clientId topic payload : Bytes} {origin : Option Nat}
    {qos : Int32} {retain : Bool}
    (horigin : ¬ bytes "mosqcluster" <+: cString clientId → origins origin)
    (h : c.receivePublish x origin clientId topic payload qos retain = some c') (b : Bytes) :
    (c.context b).Evolves md5 origins (c'.context b) := by
  obtain ⟨ctx, hctx, rfl⟩ := Option.map_eq_some_iff.mp h
  exact (evolves_update (.mosqProxyPass horigin hctx) b).trans (evolves_broadcast _ _ _ b)

/-- A broker processes the first packet of a monitor. -/
theorem evolves_receivePacket {a x : Bytes} {m : Monitor} {packet : Tagged} {uplink : List Tagged}
    (hm : ∀ m' ∈ (c.context a).clusterNodes, m'.name = x → m' = m)
    (huplink : m.uplink = packet :: uplink)
    (horigin : ¬ bytes "mosqcluster" <+: cString m.clientId →
      origins packet.origin)
    (h : (c.modify a x fun m => { m with uplink := uplink }).receivePacket a x m packet = some c')
    (b : Bytes) : (c.context b).Evolves md5 origins (c'.context b) := by
  -- The packet leaves the uplink, and the subscriptions may change with it.
  have hpop : ∀ subscriptions : Monitor → List Bytes,
      (∀ topic ∈ subscriptions m, topic ∈ m.subscriptions ∨
        ∃ id qos, packet.command = .subscribe id topic qos) →
      (c.context a).Evolves md5 origins ((c.context a).modify x fun m =>
        { m with uplink := uplink, subscriptions := subscriptions m }) := by
    refine fun subscriptions hsub => .modify fun m' hm' hname => ?_
    obtain rfl := hm m' hm' hname
    exact .single (.packet huplink _ hsub)
  have hmodify : ∀ g : Monitor → Monitor,
      (c.modify a x fun m => { m with uplink := uplink }).modify a x g =
        c.modify a x (g ∘ fun m => { m with uplink := uplink }) :=
    fun g => modify_modify fun _ => rfl
  unfold receivePacket at h
  cases hcommand : packet.command with
  | publish id topic payload qos retain =>
    rw [hcommand] at h
    refine .trans ?_ (evolves_receivePublish horigin h b)
    exact evolves_update (hpop (·.subscriptions) fun topic => .inl) b
  | subscribe id topic qos =>
    have hsub := hpop (·.subscriptions ++ [topic]) fun t ht =>
      (List.mem_append.mp ht).imp_right fun ht => ⟨id, qos, by simp_all⟩
    simp only [hcommand, Option.some.injEq] at h
    rw [hmodify] at h
    have hcontext : c'.context b = (c.modify a x fun m =>
        { m with uplink := uplink, subscriptions := m.subscriptions ++ [topic] }).context b := by
      rw [← h]
      split <;> rfl
    exact hcontext ▸ evolves_update hsub b
  | unsubscribe id topic =>
    have hsub := hpop (fun m => m.subscriptions.filter (· ≠ topic)) fun t ht =>
      .inl (List.mem_of_mem_filter ht)
    simp only [hcommand, Option.some.injEq] at h
    rw [hmodify] at h
    exact h ▸ evolves_update hsub b

/-- What a step does to the monitors of a node: finitely many elementary changes of each, and new
monitors. Commands are queued for `on_connect`, for a publish of an ordinary client, and for a
packet whose sender the plugin takes for one. -/
theorem next_evolves (hnodup : ∀ a, (c.context a).names.Nodup) (hnone : origins none)
    (hclient : (∃ x clientId topic payload qos retain,
      l = .clientPublish x clientId topic payload qos retain) → origins (some c.published))
    (hpacket : ∀ a, ∀ m ∈ (c.context a).clusterNodes, ∀ packet ∈ m.uplink,
      ¬ bytes "mosqcluster" <+: cString m.clientId → origins packet.origin)
    (h : c.next md5 l = some c') (b : Bytes) :
    (c.context b).Evolves md5 origins (c'.context b) := by
  cases l with
  | register a =>
    obtain ⟨-, h⟩ := Option.ite_none_right_eq_some.mp h
    exact (Option.some.inj h) ▸ .refl _
  | answer a =>
    obtain ⟨-, h⟩ := Option.ite_none_right_eq_some.mp h
    exact (Option.some.inj h) ▸ .refl _
  | takeOver a =>
    obtain ⟨nodes, -, rfl⟩ := next_takeOver h
    exact evolves_update (.maintainProxyInstances nodes _) b
  | connect a x =>
    obtain ⟨m, m₂, hm, -, hconnect, rfl⟩ := next_connect h
    obtain ⟨m₁, hm₁, hm₂⟩ := Option.bind_eq_some_iff.mp hconnect
    refine evolves_update (.modify fun m' hm' hname => ?_) b
    obtain rfl := ClusterPluginContext.eq_of_monitor? (hnodup a) hm hm' hname
    -- A connect subscribes to the monitor topic and announces the node.
    exact .tail (.tail (.single .connected) (.subscribe hnone hm₁)) (.publish hnone hm₂)
  | run a x ok =>
    obtain ⟨m, q, commands, hm, hcommands, rfl⟩ := next_run h
    refine evolves_update (.modify fun m' hm' hname => ?_) b
    obtain rfl := ClusterPluginContext.eq_of_monitor? (hnodup a) hm hm' hname
    exact .single (.run ok hcommands)
  | receive a x =>
    obtain ⟨m, packet, uplink, hm, huplink, h⟩ := next_receive h
    refine evolves_receivePacket (fun m' hm' hname =>
      ClusterPluginContext.eq_of_monitor? (hnodup a) hm hm' hname) huplink ?_ h b
    exact hpacket a m (List.mem_of_find?_eq_some hm) packet (huplink ▸ List.mem_cons_self)
  | deliver a x =>
    obtain ⟨m, message, inbox, hm, hinbox, rfl⟩ := next_deliver h
    refine evolves_update (.trans (.modify fun m' hm' hname => ?_) (.onMessage message)) b
    obtain rfl := ClusterPluginContext.eq_of_monitor? (hnodup a) hm hm' hname
    exact .single (.arrival hinbox)
  | clientPublish x clientId topic payload qos retain =>
    exact evolves_receivePublish (c := { c with published := c.published + 1 })
      (fun _ => hclient ⟨x, clientId, topic, payload, qos, retain, rfl⟩) h b

end Cluster

/-! ## The invariant -/

/-- The command publishes, or subscribes to the monitor topic. -/
def MosqCommand.OnMonitorTopic : MosqCommand → Prop
  | .publish .. => True
  | .subscribe _ topic _ => topic = monitorTopic
  | .unsubscribe .. => False

/-- What holds of every monitor. -/
structure Monitor.WellFormed (md5 : Bytes → Vector UInt8 16) (m : Monitor) : Prop where
  /-- The client id is made from the name of the peer. -/
  clientId : m.clientId = proxyClientId md5 m.name
  /-- The monitor topic is the only one to be subscribed. -/
  commands : ∀ q ∈ m.commands, q.command.OnMonitorTopic
  /-- Also by the packets on their way. -/
  uplink : ∀ q ∈ m.uplink, q.command.OnMonitorTopic
  /-- The monitor topic is the only one that is subscribed. -/
  subscriptions : ∀ topic ∈ m.subscriptions, topic = monitorTopic
  /-- Messages are on the monitor topic. -/
  inbox : ∀ message ∈ m.inbox, message.topic = monitorTopic

/-- A monitor that has just been started is well formed. -/
theorem Monitor.wellFormed_start (name : Bytes) : (Monitor.start md5 name).WellFormed md5 := by
  constructor <;> simp [Monitor.start]

/-- An elementary change keeps a monitor well formed. -/
theorem Monitor.WellFormed.step {m m' : Monitor} (hm : m.WellFormed md5)
    (h : m.Step origins m') : m'.WellFormed md5 := by
  obtain ⟨hname, hclientId⟩ := h.name_eq
  have hid : m'.clientId = proxyClientId md5 m'.name := by rw [hname, hclientId, hm.clientId]
  cases h with
  | connected => exact ⟨hid, hm.commands, hm.uplink, hm.subscriptions, hm.inbox⟩
  | publish _ h =>
    obtain ⟨command, hcommand, rfl⟩ := Monitor.request_eq h
    obtain ⟨payload, -, rfl⟩ := Option.map_eq_some_iff.mp hcommand
    refine ⟨hid, fun q hq => ?_, hm.uplink, hm.subscriptions, hm.inbox⟩
    rcases List.mem_append.mp hq with hq | hq
    · exact hm.commands q hq
    · exact List.mem_singleton.mp hq ▸ trivial
  | subscribe _ h =>
    obtain ⟨command, hcommand, rfl⟩ := Monitor.request_eq h
    obtain rfl : .subscribe _ (cString monitorTopic) 1 = command := Option.some.inj hcommand
    refine ⟨hid, fun q hq => ?_, hm.uplink, hm.subscriptions, hm.inbox⟩
    rcases List.mem_append.mp hq with hq | hq
    · exact hm.commands q hq
    · exact List.mem_singleton.mp hq ▸ (by decide : cString monitorTopic = monitorTopic)
  | run ok h =>
    refine ⟨hid, fun q hq => ?_, fun q hq => ?_, hm.subscriptions, hm.inbox⟩
    · exact hm.commands q (h ▸ List.mem_cons_of_mem _ hq)
    · -- A publish or subscription that the library refuses is gone.
      cases ok
      · exact hm.uplink q hq
      · rcases List.mem_append.mp hq with hq | hq
        · exact hm.uplink q hq
        · exact hm.commands q (h ▸ List.mem_singleton.mp hq ▸ List.mem_cons_self)
  | packet h subscriptions hsub =>
    refine ⟨hid, hm.commands, fun q hq => ?_, fun topic htopic => ?_, hm.inbox⟩
    · exact hm.uplink q (h ▸ List.mem_cons_of_mem _ hq)
    · -- A new subscription is the one in the packet.
      rcases hsub topic htopic with htopic | ⟨id, qos, hcommand⟩
      · exact hm.subscriptions topic htopic
      · have := hm.uplink _ (h ▸ List.mem_cons_self)
        rwa [hcommand] at this
  | message h =>
    refine ⟨hid, hm.commands, hm.uplink, hm.subscriptions, fun message hmessage => ?_⟩
    rcases List.mem_append.mp hmessage with hmessage | hmessage
    · exact hm.inbox message hmessage
    · exact List.mem_singleton.mp hmessage ▸ hm.subscriptions _ h
  | arrival h =>
    exact ⟨hid, hm.commands, hm.uplink, hm.subscriptions, fun message hmessage =>
      hm.inbox message (h ▸ List.mem_cons_of_mem _ hmessage)⟩

/-- Elementary changes keep a monitor well formed. -/
theorem Monitor.WellFormed.steps {m m' : Monitor} (hm : m.WellFormed md5)
    (h : m.Steps origins m') : m'.WellFormed md5 := by
  induction h with
  | refl => exact hm
  | tail _ hstep ih => exact ih.step hstep

/-- What holds in every reachable state of the cluster. -/
structure Cluster.WellFormed (md5 : Bytes → Vector UInt8 16) (apiJoin : Bytes → Bytes)
    (c : Cluster) : Prop where
  /-- The plugin of a node knows the name of the node. -/
  nodeName : ∀ a, (c.context a).nodeName = a
  /-- The configuration stays. -/
  apiJoin_eq : ∀ a, (c.context a).apiJoin = apiJoin a
  /-- A node has one monitor for each peer. -/
  nodup : ∀ a, (c.context a).names.Nodup
  /-- A node has no monitor for itself. -/
  other : ∀ a, a ∉ (c.context a).names
  /-- The monitors are well formed. -/
  monitors : ∀ a, ∀ m ∈ (c.context a).clusterNodes, m.WellFormed md5

namespace Cluster

variable {apiJoin : Bytes → Bytes} {c c' : Cluster} {l : ClusterLabel}

/-- Every step keeps the cluster well formed. -/
theorem WellFormed.step (hc : c.WellFormed md5 apiJoin) (h : c.next md5 l = some c') :
    c'.WellFormed md5 apiJoin := by
  have hevolves : ∀ a, (c.context a).Evolves md5 (fun _ => True) (c'.context a) :=
    next_evolves hc.nodup trivial (fun _ => trivial) (fun _ _ _ _ _ _ => trivial) h
  constructor
  · intro a
    obtain ⟨new, hnew⟩ := hevolves a
    rw [hnew.nodeName, hc.nodeName]
  · intro a
    obtain ⟨new, hnew⟩ := hevolves a
    rw [hnew.apiJoin, hc.apiJoin_eq]
  · intro a
    obtain ⟨new, hnew⟩ := hevolves a
    rw [hnew.names_eq]
    refine List.nodup_append.mpr ⟨hc.nodup a, hnew.nodup, ?_⟩
    rintro name hname _ hname' rfl
    exact hnew.fresh name hname' hname
  · intro a
    obtain ⟨new, hnew⟩ := hevolves a
    rw [hnew.names_eq, List.mem_append, not_or]
    exact ⟨hc.other a, fun hmem => hnew.other a hmem (hc.nodeName a).symm⟩
  · -- A monitor has come from one of before, or from a new one, by elementary changes.
    intro a m' hm'
    obtain ⟨new, hnew⟩ := hevolves a
    obtain ⟨m, hm, hsteps⟩ := exists_of_mem_forall₂ hnew.monitors hm'
    refine Monitor.WellFormed.steps ?_ hsteps
    rcases List.mem_append.mp hm with hm | hm
    · exact hc.monitors a m hm
    · obtain ⟨name, -, rfl⟩ := List.mem_map.mp hm
      exact Monitor.wellFormed_start name

/-- The cluster is well formed in every reachable state. -/
theorem wellFormed_of_reachable (h : (cluster md5 apiJoin).Reachable c) :
    c.WellFormed md5 apiJoin :=
  TransitionSystem.Reachable.invariant (T := cluster md5 apiJoin)
    (by constructor <;> simp [cluster, start, ClusterPluginContext.names])
    (fun _ _ _ hc hnext => hc.step hnext) h

end Cluster

end MosqCluster
