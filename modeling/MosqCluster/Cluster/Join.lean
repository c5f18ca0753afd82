import MosqCluster.Cluster.Context
import MosqCluster.Helper.HttpWrapper

/-!
# Joining the cluster

`ClusterPluginContext::Initialize`: the plugin of a node asks the auth service for the other nodes,
and starts a monitor for each node that the reply names. A plugin that is loaded again does not
ask.

## Main definitions

* `ClusterPluginContext.initializePlugin`.

## Main results

* `ClusterPluginContext.initializePlugin_isOk_iff`: it returns if and only if a reply leaves a root
  with fields.
-/

namespace MosqCluster

open Json

namespace ClusterPluginContext

/-- The document that is sent. -/
def joinData (ctx : ClusterPluginContext) : Except Exception JsonDocument := do
  let doc : JsonDocument := {}
  let doc ← doc.set (bytes "action") (.string (bytes "join"))
  doc.set (bytes "node") (.string ctx.nodeName)

/-- `HttpWrapper` with the headers of the plugin. -/
def wrapper (net : Network) : HttpWrapper := .json net (bytes "mosqcluster/1.6.9.1")

/-- What is done about a reply: the nodes are taken from it if its code is 0. -/
def joinReply (md5 : Bytes → Vector UInt8 16) (ctx : ClusterPluginContext) (resp : JsonDocument) :
    Except Exception ClusterPluginContext := do
  if (← resp.getInt (bytes "code")) = some 0 then
    return ctx.maintainProxyInstances md5 ((← resp.getStrings (bytes "nodes")).getD [])
  else return ctx

/-- `Initialize`, after `LoadConfig`. -/
def initializePlugin (reader : Reader) (net : Network) (md5 : Bytes → Vector UInt8 16)
    (ctx : ClusterPluginContext) (reload : Bool) : Except Exception ClusterPluginContext :=
  if reload then return ctx
  else do (wrapper net).ask reader net ctx.apiJoin (← ctx.joinData) (joinReply md5 ctx) ctx

variable {reader : Reader} {net : Network} {md5 : Bytes → Vector UInt8 16}
  {ctx : ClusterPluginContext} {resp d : JsonDocument}

theorem exists_joinData_eq (ctx : ClusterPluginContext) : ∃ d, ctx.joinData = .ok d := by
  apply Exists.intro
  rw [joinData, JsonDocument.set_bind_of_key (by decide)]
  exact JsonDocument.set_of_key (by decide) _

theorem joinReply_isOk_iff :
    (joinReply md5 ctx resp).isOk ↔ resp.root.isNullOrObject = true := by
  cases hroot : resp.root.isNullOrObject with
  | false =>
    refine iff_of_false ?_ Bool.false_ne_true
    exact JsonDocument.getAs_bind_of_not hroot _
  | true =>
    refine iff_of_true ?_ rfl
    rw [joinReply, JsonDocument.getInt, JsonDocument.getStrings,
      JsonDocument.getAs_of_key (by decide) hroot, JsonDocument.getAs_of_key (by decide) hroot]
    change (if _ then _ else _ : Except Exception ClusterPluginContext).isOk
    split <;> rfl

/-- A new document has no code. -/
theorem joinReply_empty : joinReply md5 ctx {} = .ok ctx := by
  rw [joinReply, JsonDocument.getInt, JsonDocument.getAs_of_key (by decide) rfl]
  rfl

/-- The plugin is set up if and only if a reply leaves a root with fields. -/
theorem initializePlugin_isOk_iff (hdata : ctx.joinData = .ok d) :
    (initializePlugin reader net md5 ctx false).isOk ↔
      ∀ content, (wrapper net).Replies net ctx.apiJoin d content →
        JsonDocument.LeavesFields reader content := by
  rw [initializePlugin, if_neg Bool.false_ne_true, hdata]
  exact HttpWrapper.ask_isOk_iff rfl joinReply_empty fun _ => joinReply_isOk_iff

end ClusterPluginContext

end MosqCluster
