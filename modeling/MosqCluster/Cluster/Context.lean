import MosqCluster.Client.Model
import MosqCluster.Helper.Crypto.HexStr

/-!
# The plugin of one node

`ClusterPluginContext` of `mosquitto_cluster_plugin/cluster_plugin_context.cpp`: the list of the
other nodes, each with a client of its own (`MosqClusterMonitor`) that is connected to the broker of
that node. A publish of an ordinary client is passed on to every node of the list
(`MosqProxyPass`); names of other nodes come from the reply to the join and from messages on the
monitor topic (`MaintainProxyInstances`).

Of a monitor, the fields that `Start` reads are kept, its command queue, and the state of its
connection: the packets on the way to the broker, the topics subscribed there, and the messages on
the way back. The threads that serve the queue and the connection are in `MosqCluster.Client`.

A command, a packet and a message carry an `origin`: the number of the client publish whose content
they copy, if there is one. It is history and never read.

## Main definitions

* `Monitor` and `Monitor.start`: the client of one peer;
* `ClusterPluginContext`: the plugin, with `maintainProxyInstances`, `mosqProxyPass`, `onConnect`
  and `onMessage`.
-/

namespace MosqCluster

/-! ## Strings -/

/-- `StringVector::Split` by a separator of one character: an empty last piece is dropped. -/
def split (sp : UInt8) : Bytes → List Bytes
  | [] => []
  | c :: s =>
    if c = sp then [] :: split sp s
    else match split sp s with
      | [] => [[c]]
      | w :: ws => (c :: w) :: ws

/-- `isspace` in the C locale. -/
def isSpace (c : UInt8) : Bool := c = 32 || ((9 : UInt8) ≤ c && c ≤ 13)

/-- The digits at the start of a string, read as a number. -/
def leadingNumber (s : Bytes) : Int :=
  (s.takeWhile fun c => (48 : UInt8) ≤ c && c ≤ 57).foldl (fun n c => n * 10 + (c - 48).toNat) 0

/-- `atoi`: the digits after blanks and a sign, read as a `long` that saturates and is then cut to
an `int`. -/
def atoi (s : Bytes) : Int32 :=
  let value : Int := match s.dropWhile isSpace with
    | 45 :: digits => -leadingNumber digits
    | 43 :: digits => leadingNumber digits
    | digits => leadingNumber digits
  Int32.ofInt (max (-2 ^ 63) (min (2 ^ 63 - 1) value))

/-! ## Monitors -/

/-- A queued command, and the client publish that it copies. -/
structure Tagged where
  /-- The number of the copied publish. -/
  origin : Option Nat
  /-- The command. -/
  command : MosqCommand
  deriving DecidableEq, Repr

/-- A message on its way from a broker to a monitor. -/
structure Message where
  /-- The topic. -/
  topic : Bytes
  /-- The payload. -/
  payload : Bytes
  deriving DecidableEq, Repr

/-- `MosqClusterNode` together with its `MosqClusterMonitor`. -/
structure Monitor where
  /-- `name_`, the name of the peer. -/
  name : Bytes
  /-- `host_`. -/
  host : Bytes
  /-- `port_`. -/
  port : Int32
  /-- `client_id_`. -/
  clientId : Bytes
  /-- `username_`. -/
  username : Bytes
  /-- `password_`. -/
  password : Bytes
  /-- `clean_session_`. -/
  cleanSession : Bool
  /-- `keep_alive_`. -/
  keepAlive : Int32
  /-- `command_id_`. -/
  commandId : Int64 := 0
  /-- Whether the broker of the peer has accepted the connection. -/
  connected : Bool := false
  /-- `commands_`. -/
  commands : List Tagged := []
  /-- The packets handed to libmosquitto that the broker has not processed. -/
  uplink : List Tagged := []
  /-- The topics subscribed on the broker. -/
  subscriptions : List Bytes := []
  /-- The messages sent by the broker that `on_message` has not seen. -/
  inbox : List Message := []
  /-- History: every command ever queued, in order. -/
  pushed : List Tagged := []
  deriving DecidableEq, Repr

/-- `monitor_topic_`. -/
def monitorTopic : Bytes := bytes "/mosq/cluster/join"

/-- The client id of the monitor of a peer, for a digest `md5`. -/
def proxyClientId (md5 : Bytes → Vector UInt8 16) (name : Bytes) : Bytes :=
  format (bytes "mosqcluster/" ++ bytes2HexStr (md5 (cString name)).toList)

/-- The monitor of a peer as `MaintainProxyInstances` starts it. -/
def Monitor.start (md5 : Bytes → Vector UInt8 16) (name : Bytes) : Monitor :=
  let address : Bytes × Int32 := match split 58 (cString name) with
    | [host, port] => (host, atoi (cString port))
    | _ => (cString name, 1883)
  { name := name
    host := address.1
    port := address.2
    clientId := proxyClientId md5 name
    username := bytes "mosqcluster"
    password := bytes "mosqcluster"
    cleanSession := true
    keepAlive := 10 }

/-- `MosqClient::Publish` and `MosqClient::Subscribe` on a monitor. -/
def Monitor.request (m : Monitor) (origin : Option Nat) (r : Request) : Option Monitor :=
  let id := m.commandId + 1
  (r.command id.toInt32).map fun command =>
    { m with
      commandId := id
      commands := m.commands ++ [⟨origin, command⟩]
      pushed := m.pushed ++ [⟨origin, command⟩] }

/-- The broker accepts the connection of a monitor of the node `nodeName`, and
`MosqClusterMonitor::on_connect` runs. -/
def Monitor.onConnect (m : Monitor) (nodeName : Bytes) : Option Monitor :=
  ({ m with connected := true }.request none (.subscribe monitorTopic 1)).bind fun m =>
    m.request none (.publish monitorTopic nodeName (Int32.ofNat nodeName.length) 1 false)

/-! ## The plugin -/

/-- The fields of `ClusterPluginContext` that the plugin reads after `LoadConfig`. -/
structure ClusterPluginContext where
  /-- `node_name_`. -/
  nodeName : Bytes
  /-- `api_join_`. -/
  apiJoin : Bytes
  /-- `cluster_nodes_`. -/
  clusterNodes : List Monitor
  deriving DecidableEq, Repr

namespace ClusterPluginContext

/-- `MaintainProxyInstances(const string&)`. -/
def maintainProxyInstance (md5 : Bytes → Vector UInt8 16) (ctx : ClusterPluginContext)
    (name : Bytes) : ClusterPluginContext :=
  if ctx.clusterNodes.any (·.name = name) then ctx
  else { ctx with clusterNodes := ctx.clusterNodes ++ [Monitor.start md5 name] }

/-- `MaintainProxyInstances(const vector<string>&)`. -/
def maintainProxyInstances (md5 : Bytes → Vector UInt8 16) (ctx : ClusterPluginContext)
    (names : List Bytes) : ClusterPluginContext :=
  names.foldl (fun ctx name =>
    if ctx.nodeName = name then ctx else ctx.maintainProxyInstance md5 name) ctx

/-- The loop of `MosqProxyPass` over the list. -/
def publishAll (origin : Option Nat) (r : Request) : List Monitor → Option (List Monitor)
  | [] => some []
  | m :: ms => (m.request origin r).bind fun m => (publishAll origin r ms).map (m :: ·)

/-- `MosqProxyPass`, called by `mosquitto_auth_acl_check` for every publish that the broker of the
node receives. -/
def mosqProxyPass (ctx : ClusterPluginContext) (origin : Option Nat)
    (clientId topic payload : Bytes) (payloadlen : Int64) (qos : Int32) (retain : Bool) :
    Option ClusterPluginContext :=
  if ctx.apiJoin.isEmpty then some ctx
  else if bytes "mosqcluster" <+: cString clientId then some ctx
  else
    (publishAll origin (.publish (cString topic) payload payloadlen.toInt32 qos retain)
      ctx.clusterNodes).map fun nodes => { ctx with clusterNodes := nodes }

/-- `MosqClusterMonitor::on_message`. -/
def onMessage (md5 : Bytes → Vector UInt8 16) (ctx : ClusterPluginContext) (message : Message) :
    ClusterPluginContext :=
  if monitorTopic = cString message.topic then
    if message.payload ≠ ctx.nodeName then ctx.maintainProxyInstance md5 message.payload else ctx
  else ctx

/-- Change the monitor of the peer `name`. -/
def modify (ctx : ClusterPluginContext) (name : Bytes) (f : Monitor → Monitor) :
    ClusterPluginContext :=
  { ctx with clusterNodes := ctx.clusterNodes.map fun m => if m.name = name then f m else m }

/-- The monitor of the peer `name`. -/
def monitor? (ctx : ClusterPluginContext) (name : Bytes) : Option Monitor :=
  ctx.clusterNodes.find? (·.name = name)

/-- The names of the peers. -/
def names (ctx : ClusterPluginContext) : List Bytes := ctx.clusterNodes.map Monitor.name

end ClusterPluginContext

end MosqCluster
