import MosqCluster.AuthPlugin.Context
import MosqCluster.AuthService.Routes
import MosqCluster.Cluster.Join

/-!
# Untrusted texts

The calls that read a JSON text from outside: the look-ups of `JsonDocument`, the routes of the auth
service, the checks of the auth plugin, and the set-up of the cluster plugin. None of them tests
what `Parse` returns or what kind of value it leaves, so that a text whose root is an array, a
string, a number or a boolean ends each of them with an exception that nothing catches, and so does
a text that the reader does not get through. A route that asks the manager relies on its `lock_`,
too.

## Main definitions

* `TextCall`: the calls, with the text that they read;
* `TextCall.Returns` and `TextCall.Harmless`.

## Main results

* `TextCall.returns_iff`: a call returns if and only if its text is harmless.
-/

namespace MosqCluster

open Json Http

/-- A call that reads a text from outside. -/
inductive TextCall where
  | getInt (text key : Bytes)
  | getString (text key : Bytes)
  | getInts (text key : Bytes)
  | getStrings (text key : Bytes)
  | routeInitialize (mgr : MosquittoContextManager) (req : HttpRequest) (resp : HttpResponse)
  | routeCheckUser (mgr : MosquittoContextManager) (req : HttpRequest) (resp : HttpResponse)
  | routeCheckAcl (mgr : MosquittoContextManager) (req : HttpRequest) (resp : HttpResponse)
  | checkUser (net : Network) (ctx : AuthPluginContext) (client username password : Bytes)
  | checkAcl (net : Network) (ctx : AuthPluginContext) (client : Bytes) (access : Int32)
      (topic : Bytes)
  | initializePlugin (net : Network) (md5 : Bytes → Vector UInt8 16) (ctx : ClusterPluginContext)
      (reload : Bool)

namespace TextCall

/-- The call returns normally. -/
def Returns (reader : Reader) : TextCall → Prop
  | getInt text key => (JsonDocument.ofText reader text >>= (·.getInt key)).isOk
  | getString text key => (JsonDocument.ofText reader text >>= (·.getString key)).isOk
  | getInts text key => (JsonDocument.ofText reader text >>= (·.getInts key)).isOk
  | getStrings text key => (JsonDocument.ofText reader text >>= (·.getStrings key)).isOk
  | routeInitialize mgr req resp => (RouteInitialize.process reader mgr req resp).isOk
  | routeCheckUser mgr req resp => (RouteCheckUser.process reader mgr req resp).isOk
  | routeCheckAcl mgr req resp => (RouteCheckAcl.process reader mgr req resp).isOk
  | checkUser net ctx client username password =>
    (ctx.checkUser reader net client username password).isOk
  | checkAcl net ctx client access topic => (ctx.checkAcl reader net client access topic).isOk
  | initializePlugin net md5 ctx reload =>
    (ctx.initializePlugin reader net md5 reload).isOk

/-- The reader gets through the text, and every value that is asked for a member on the way down a
path is an object or null. -/
def HarmlessPath (reader : Reader) (text key : Bytes) : Prop :=
  ∃ d, JsonDocument.ofText reader text = .ok d ∧
    ∀ w, d.root.Asks key w → w.isNullOrObject = true

/-- The reader gets through the reply to a call, if it completes with status 200, and leaves an
object or null as its root. -/
def HarmlessReply (reader : Reader) (http : HttpWrapper) (net : Network) (url : Bytes)
    (data : Except Exception JsonDocument) : Prop :=
  ∀ d content, data = .ok d → http.Replies net url d content →
    JsonDocument.LeavesFields reader content

/-- The text of the call is not read, or the reader gets through it, and nothing is asked of a value
that has no members, nor of a manager whose `lock_` is not `NULL`. -/
def Harmless (reader : Reader) : TextCall → Prop
  | getInt text key | getString text key | getInts text key | getStrings text key =>
    HarmlessPath reader text key
  | routeInitialize mgr req _ => Answerable reader mgr req RouteInitialize.asksManager
  | routeCheckUser mgr req _ => Answerable reader mgr req RouteCheckUser.asksManager
  | routeCheckAcl mgr req _ => Answerable reader mgr req RouteCheckAcl.asksManager
  | checkUser net ctx client username password =>
    ctx.checkuserUrl = [] ∨ bytes "mosqcluster" <+: cString client ∨
      HarmlessReply reader (AuthPluginContext.wrapper net) net ctx.checkuserUrl
        (ctx.userData username password (cString client))
  | checkAcl net ctx client access topic =>
    ctx.checkaclUrl = [] ∨ bytes "mosqcluster" <+: cString client ∨
      HarmlessReply reader (AuthPluginContext.wrapper net) net ctx.checkaclUrl
        (ctx.aclData access topic (cString client))
  | initializePlugin net _ ctx reload =>
    reload = true ∨
      HarmlessReply reader (ClusterPluginContext.wrapper net) net ctx.apiJoin ctx.joinData

variable {reader : Reader} {http : HttpWrapper} {net : Network} {url : Bytes} {d : JsonDocument}

theorem harmlessReply_iff :
    HarmlessReply reader http net url (.ok d) ↔
      ∀ content, http.Replies net url d content → JsonDocument.LeavesFields reader content :=
  ⟨fun h content hreply => h d content rfl hreply, fun h d' content hdata hreply => by
    obtain rfl := Except.ok.inj hdata
    exact h content hreply⟩

/-- A look-up in a text. -/
theorem getAs_isOk_iff {α : Type} {convert : Value → Option α} {text key : Bytes} :
    (JsonDocument.ofText reader text >>= (·.getAs convert key)).isOk ↔
      HarmlessPath reader text key := by
  unfold HarmlessPath
  cases JsonDocument.ofText reader text with
  | error e =>
    refine iff_of_false Bool.false_ne_true ?_
    rintro ⟨d, hd, -⟩
    cases hd
  | ok d =>
    refine JsonDocument.getAs_isOk_iff.trans ⟨fun h => ⟨d, rfl, h⟩, ?_⟩
    rintro ⟨d', hd, h⟩
    obtain rfl := Except.ok.inj hd
    exact h

/-- A call returns if and only if its text is harmless. -/
theorem returns_iff (reader : Reader) (call : TextCall) :
    call.Returns reader ↔ call.Harmless reader := by
  cases call with
  | getInt text key => exact getAs_isOk_iff
  | getString text key => exact getAs_isOk_iff
  | getInts text key => exact getAs_isOk_iff
  | getStrings text key => exact getAs_isOk_iff
  | routeInitialize mgr req resp => exact RouteInitialize.process_isOk_iff
  | routeCheckUser mgr req resp => exact RouteCheckUser.process_isOk_iff
  | routeCheckAcl mgr req resp => exact RouteCheckAcl.process_isOk_iff
  | checkUser net ctx client username password =>
    obtain ⟨d, hdata⟩ := ctx.exists_userData_eq username password (cString client)
    rw [Harmless, hdata, harmlessReply_iff]
    exact AuthPluginContext.check_isOk_iff hdata
  | checkAcl net ctx client access topic =>
    obtain ⟨d, hdata⟩ := ctx.exists_aclData_eq access topic (cString client)
    rw [Harmless, hdata, harmlessReply_iff]
    exact AuthPluginContext.check_isOk_iff hdata
  | initializePlugin net md5 ctx reload =>
    cases reload with
    | true => exact iff_of_true rfl (.inl rfl)
    | false =>
      obtain ⟨d, hdata⟩ := ctx.exists_joinData_eq
      rw [Harmless, hdata, harmlessReply_iff, or_iff_right Bool.false_ne_true]
      exact ClusterPluginContext.initializePlugin_isOk_iff hdata

/-- The body `[]` of a request ends `RouteCheckUser` with an exception. -/
theorem not_returns_empty_array : ¬ ∀ (reader : Reader) (call : TextCall), call.Returns reader := by
  intro h
  let req : HttpRequest := { HttpRequest.fresh with body := bytes "[]" }
  have hreturns := h (.only (bytes "[]") (.array []))
    (.routeCheckUser ⟨[], [], [], 0, []⟩ req .new)
  obtain ⟨data, hbody, hroot, -⟩ := RouteCheckUser.process_isOk_iff.mp hreturns
  rw [bodyDocument, show req.body = bytes "[]" from rfl, cString_of_not_mem (by decide),
    JsonDocument.ofText_only (by decide) (by decide)] at hbody
  obtain rfl := Except.ok.inj hbody
  cases hroot

end TextCall

end MosqCluster
