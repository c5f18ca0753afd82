import MosqCluster.Cluster.Context

/-!
# The cluster

Any number of nodes, each a broker with the plugin, the service they join through, and the ordinary
clients of the brokers, interleaved in any order. A node is identified with its name, which the
monitors of the other nodes use as its address. A join registers the name of the node
(`MosquittoContextManager::Initialize`) and then reads all registered names (`NodeNames`). These are
two steps, between which other joins are handled; that two calls of the manager do not overlap is
taken for granted, since `lock_` of the service is never set. The reply that carries the names is a
third step.

A broker processes the packets of one connection in order. It asks the plugin about every publish
before it sends it to the subscribers (`mosquitto_auth_acl_check`, which the broker calls once for a
publish). Connections stay up once they are made, so that no monitor connects, subscribes and
announces its node again; a command that libmosquitto refuses is dropped.

## Main definitions

* `Cluster` and `Cluster.next`: the state of all parties and one step;
* `cluster`: the transition system;
* `joinInTurn`: the joins of a small cluster.
-/

namespace MosqCluster

/-- How far a node has come with its join. -/
inductive JoinPhase
  /-- The node has not sent its join. -/
  | idle
  /-- The service has registered the name. -/
  | registered
  /-- The service has read the names for the reply, which is on its way. -/
  | answered (nodes : List Bytes)
  /-- The node has taken over the names of the reply. -/
  | joined (nodes : List Bytes)
  deriving DecidableEq, Repr

/-- History: what decides who hears of whom. -/
inductive Event
  /-- The service has registered `a`. -/
  | registered (a : Bytes)
  /-- The service has read the names for the reply to `a`. -/
  | answered (a : Bytes)
  /-- The broker of `x` has subscribed the monitor that `a` has there to the monitor topic. -/
  | subscribed (a x : Bytes)
  /-- The broker of `x` has received the name `b` on the monitor topic. -/
  | announced (b x : Bytes)
  deriving DecidableEq, Repr

/-- The state of the nodes and of the service. -/
structure Cluster where
  /-- The plugin of each node. -/
  context : Bytes → ClusterPluginContext
  /-- How far each node has come with its join. -/
  phase : Bytes → JoinPhase
  /-- The keys of `mosquitto_instances_`, in the order of their registration. -/
  registry : List Bytes
  /-- How many publishes of ordinary clients the brokers have received. -/
  published : Nat
  /-- History: what decides who hears of whom, in order. -/
  history : List Event

/-- One step. -/
inductive ClusterLabel
  /-- The service registers the name `a`. -/
  | register (a : Bytes)
  /-- The service reads the names for the reply to `a`. -/
  | answer (a : Bytes)
  /-- The reply reaches `a`, which starts its monitors. -/
  | takeOver (a : Bytes)
  /-- The monitor of `a` for `x` connects to the broker of `x`. -/
  | connect (a x : Bytes)
  /-- The monitor of `a` for `x` runs its next command; libmosquitto accepts it or not. -/
  | run (a x : Bytes) (ok : Bool)
  /-- The broker of `x` processes the next packet of the monitor of `a`. -/
  | receive (a x : Bytes)
  /-- The next message of the broker of `x` reaches the monitor of `a`. -/
  | deliver (a x : Bytes)
  /-- The broker of `x` receives a publish of an ordinary client. -/
  | clientPublish (x clientId topic payload : Bytes) (qos : Int32) (retain : Bool)
  deriving DecidableEq, Repr

namespace Cluster

variable (md5 : Bytes → Vector UInt8 16)

/-- Change the plugin of the node `a`. -/
def update (c : Cluster) (a : Bytes) (ctx : ClusterPluginContext) : Cluster :=
  { c with context := Function.update c.context a ctx }

/-- Change the monitor of the node `a` for `x`. -/
def modify (c : Cluster) (a x : Bytes) (f : Monitor → Monitor) : Cluster :=
  c.update a ((c.context a).modify x f)

/-- The broker of `x` sends a message to the monitors that are subscribed to its topic. -/
def broadcast (c : Cluster) (x : Bytes) (message : Message) : Cluster :=
  { c with
    context := fun a => (c.context a).modify x fun m =>
      if message.topic ∈ m.subscriptions then { m with inbox := m.inbox ++ [message] } else m
    history :=
      if message.topic = monitorTopic then c.history ++ [.announced message.payload x]
      else c.history }

/-- The broker of `x` receives a publish from the client `clientId`. -/
def receivePublish (c : Cluster) (x : Bytes) (origin : Option Nat) (clientId topic payload : Bytes)
    (qos : Int32) (retain : Bool) : Option Cluster :=
  ((c.context x).mosqProxyPass origin clientId topic payload (Int64.ofNat payload.length) qos
    retain).map fun ctx => (c.update x ctx).broadcast x ⟨topic, payload⟩

/-- The broker of `x` processes a packet of the monitor `m` of the node `a`. -/
def receivePacket (c : Cluster) (a x : Bytes) (m : Monitor) (packet : Tagged) : Option Cluster :=
  match packet.command with
  | .publish _ topic payload qos retain =>
    c.receivePublish x packet.origin m.clientId topic payload qos retain
  | .subscribe _ topic _ =>
    let c := c.modify a x fun m => { m with subscriptions := m.subscriptions ++ [topic] }
    some (if topic = monitorTopic then { c with history := c.history ++ [.subscribed a x] } else c)
  | .unsubscribe _ topic =>
    some (c.modify a x fun m =>
      { m with subscriptions := m.subscriptions.filter (· ≠ topic) })

/-- One step. The name of a node is a C string, and with an empty `api-join` no request reaches the
service. No connection is lost. -/
def next (c : Cluster) : ClusterLabel → Option Cluster
  | .register a =>
    if c.phase a = .idle ∧ 0 ∉ a ∧ (c.context a).apiJoin ≠ [] then
      some { c with
        phase := Function.update c.phase a .registered
        registry := c.registry ++ [a]
        history := c.history ++ [.registered a] }
    else none
  | .answer a =>
    if c.phase a = .registered then
      some { c with
        phase := Function.update c.phase a (.answered c.registry)
        history := c.history ++ [.answered a] }
    else none
  | .takeOver a =>
    match c.phase a with
    | .answered nodes =>
      let c := c.update a ((c.context a).maintainProxyInstances md5 nodes)
      some { c with phase := Function.update c.phase a (.joined nodes) }
    | _ => none
  | .connect a x =>
    ((c.context a).monitor? x).bind fun m =>
      if m.connected then none
      else (m.onConnect a).map fun m' => c.modify a x fun _ => m'
  | .run a x ok =>
    ((c.context a).monitor? x).bind fun m =>
      match m.connected, m.commands with
      | true, q :: commands =>
        some (c.modify a x fun m =>
          { m with
            commands := commands
            uplink := if ok then m.uplink ++ [q] else m.uplink })
      | _, _ => none
  | .receive a x =>
    ((c.context a).monitor? x).bind fun m =>
      match m.uplink with
      | packet :: uplink =>
        (c.modify a x fun m => { m with uplink := uplink }).receivePacket a x m packet
      | [] => none
  | .deliver a x =>
    ((c.context a).monitor? x).bind fun m =>
      match m.inbox with
      | message :: inbox =>
        let c := c.modify a x fun m => { m with inbox := inbox }
        some (c.update a ((c.context a).onMessage md5 message))
      | [] => none
  | .clientPublish x clientId topic payload qos retain =>
    { c with published := c.published + 1 }.receivePublish x (some c.published) clientId topic
      payload qos retain

/-! ## When a step is enabled -/

variable {md5} {c c' : Cluster} {a x : Bytes}

/-- A node takes over the names of a reply that is on its way. -/
theorem next_takeOver (h : c.next md5 (.takeOver a) = some c') :
    ∃ nodes, c.phase a = .answered nodes ∧
      c' = { c.update a ((c.context a).maintainProxyInstances md5 nodes) with
        phase := Function.update c.phase a (.joined nodes) } := by
  cases hphase : c.phase a with
  | answered nodes =>
    simp only [next, hphase] at h
    exact ⟨nodes, rfl, (Option.some.inj h).symm⟩
  | _ => simp [next, hphase] at h

/-- A monitor that is not connected connects. -/
theorem next_connect (h : c.next md5 (.connect a x) = some c') :
    ∃ m m', (c.context a).monitor? x = some m ∧ m.connected = false ∧ m.onConnect a = some m' ∧
      c' = c.modify a x fun _ => m' := by
  obtain ⟨m, hm, h⟩ := Option.bind_eq_some_iff.mp h
  obtain ⟨hconnected, h⟩ := Option.ite_none_left_eq_some.mp h
  obtain ⟨m', hm', rfl⟩ := Option.map_eq_some_iff.mp h
  exact ⟨m, m', hm, by simpa using hconnected, hm', rfl⟩

/-- A connected monitor runs its first command. -/
theorem next_run {ok : Bool} (h : c.next md5 (.run a x ok) = some c') :
    ∃ m q commands, (c.context a).monitor? x = some m ∧ m.commands = q :: commands ∧
      c' = c.modify a x fun m =>
        { m with
          commands := commands
          uplink := if ok then m.uplink ++ [q] else m.uplink } := by
  obtain ⟨m, hm, h⟩ := Option.bind_eq_some_iff.mp h
  split at h
  case h_1 q commands hconnected hcommands =>
    exact ⟨m, q, commands, hm, hcommands, (Option.some.inj h).symm⟩
  case h_2 => cases h

/-- A broker processes the first packet of a monitor. -/
theorem next_receive (h : c.next md5 (.receive a x) = some c') :
    ∃ m packet uplink, (c.context a).monitor? x = some m ∧ m.uplink = packet :: uplink ∧
      (c.modify a x fun m => { m with uplink := uplink }).receivePacket a x m packet = some c' := by
  obtain ⟨m, hm, h⟩ := Option.bind_eq_some_iff.mp h
  split at h
  case h_1 packet uplink huplink => exact ⟨m, packet, uplink, hm, huplink, h⟩
  case h_2 => cases h

/-- A monitor gets the first message on its way. -/
theorem next_deliver (h : c.next md5 (.deliver a x) = some c') :
    ∃ m message inbox, (c.context a).monitor? x = some m ∧ m.inbox = message :: inbox ∧
      c' = c.update a
        (((c.context a).modify x fun m => { m with inbox := inbox }).onMessage md5 message) := by
  obtain ⟨m, hm, h⟩ := Option.bind_eq_some_iff.mp h
  split at h
  case h_1 message inbox hinbox =>
    refine ⟨m, message, inbox, hm, hinbox, ?_⟩
    simpa [modify, update] using h.symm
  case h_2 => cases h

/-- The cluster before the first join; `apiJoin` is the configuration of each node. -/
def start (apiJoin : Bytes → Bytes) : Cluster where
  context a := ⟨a, apiJoin a, []⟩
  phase _ := .idle
  registry := []
  published := 0
  history := []

end Cluster

/-- The cluster as a transition system. -/
def cluster (md5 : Bytes → Vector UInt8 16) (apiJoin : Bytes → Bytes) :
    TransitionSystem Cluster ClusterLabel where
  init := .start apiJoin
  next := Cluster.next md5

/-! ## A small cluster -/

/-- The MD5 digests of the names `a`, `b` and `c`. -/
def md5Abc (s : Bytes) : Vector UInt8 16 :=
  if s = bytes "a" then #v[0x0c, 0xc1, 0x75, 0xb9, 0xc0, 0xf1, 0xb6, 0xa8,
    0x31, 0xc3, 0x99, 0xe2, 0x69, 0x77, 0x26, 0x61]
  else if s = bytes "b" then #v[0x92, 0xeb, 0x5f, 0xfe, 0xe6, 0xae, 0x2f, 0xec,
    0x3a, 0xd7, 0x1c, 0x77, 0x75, 0x31, 0x57, 0x8f]
  else #v[0x4a, 0x8a, 0x08, 0xf0, 0x9d, 0x37, 0xb7, 0x37,
    0x95, 0x64, 0x90, 0x38, 0x40, 0x8b, 0x5f, 0x33]

/-- The configuration of the nodes of a small cluster. -/
def joinUrl (_ : Bytes) : Bytes := bytes "http://127.0.0.1:2020/mosquitto/initialize"

/-- Nodes join one after another. -/
def joinInTurn (names : List Bytes) : List ClusterLabel :=
  names.flatMap fun a => [.register a, .answer a, .takeOver a]

end MosqCluster
