import MosqCluster.Helper.HttpWrapper
import MosqCluster.Helper.IniParser

/-!
# The auth plugin

`auth_plugin_context.cpp` and `mosquitto_plugin.cpp` of `mosquitto_auth_plugin`: the broker asks the
plugin about a user or about a topic, and the plugin asks the auth service. The strings of the
broker are C strings, which may be `NULL`; of a client, its id is read.

## Main definitions

* `AuthPluginContext`, with `checkUser` and `checkAcl`;
* `mosquittoAuthUnpwdCheck` and `mosquittoAuthAclCheck`.

## Main results

* `AuthPluginContext.check_of_empty`, `AuthPluginContext.check_of_clusterClient` and
  `AuthPluginContext.check_of_not_clusterClient`: what a check returns;
* `AuthPluginContext.check_isOk_iff`: when it returns.
-/

namespace MosqCluster

open Json

/-- `AuthPluginContext`, after `LoadConfig`. -/
structure AuthPluginContext where
  nodeName : Bytes
  checkuserUrl : Bytes
  checkaclUrl : Bytes

/-- `AuthPluginError`. -/
inductive AuthPluginError where
  | failed
  | noError
  | defer
  deriving DecidableEq

/-- The value of an enumerator. -/
def AuthPluginError.value : AuthPluginError → Int
  | failed => -1
  | noError => 0
  | defer => 1

namespace AuthPluginContext

/-- `LoadConfig`, for the files that have been loaded. -/
def loadConfig (conf : Config) : AuthPluginContext where
  nodeName := conf.get (bytes "nodename")
  checkuserUrl := conf.get (bytes "checkuser")
  checkaclUrl := conf.get (bytes "checkacl")

/-- `HttpWrapper` with the headers of the plugin. -/
def wrapper (net : Network) : HttpWrapper := .json net (bytes "mosqauth/1.6.9.1")

/-- What `CheckUser` and `CheckAcl` make of a reply. -/
def checkReply (resp : JsonDocument) : Except Exception AuthPluginError :=
  return if (← resp.getInt (bytes "code")) = some 0 then .noError else .failed

/-- The body that `CheckUser` and `CheckAcl` share, for the URL and the data of the check. -/
def check (reader : Reader) (net : Network) (url client : Bytes)
    (data : Bytes → Except Exception JsonDocument) : Except Exception AuthPluginError :=
  if url.isEmpty then return .defer
  else
    let clientid := cString client
    if bytes "mosqcluster" <+: clientid then return .noError
    else do (wrapper net).ask reader net url (← data clientid) checkReply .failed

/-- The document that `CheckUser` sends. -/
def userData (ctx : AuthPluginContext) (username password clientid : Bytes) :
    Except Exception JsonDocument := do
  let data : JsonDocument := {}
  let data ← data.set (bytes "name") (.string ctx.nodeName)
  let data ← data.set (bytes "clientid") (.string clientid)
  let data ← data.set (bytes "username") (.string username)
  data.set (bytes "password") (.string password)

/-- The document that `CheckAcl` sends. -/
def aclData (ctx : AuthPluginContext) (access : Int32) (topic clientid : Bytes) :
    Except Exception JsonDocument := do
  let data : JsonDocument := {}
  let data ← data.set (bytes "name") (.string ctx.nodeName)
  let data ← data.set (bytes "clientid") (.string clientid)
  let data ← data.set (bytes "access") (.int access.toInt)
  data.set (bytes "topic") (.string topic)

/-- `CheckUser`. -/
def checkUser (reader : Reader) (net : Network) (ctx : AuthPluginContext)
    (client username password : Bytes) : Except Exception AuthPluginError :=
  check reader net ctx.checkuserUrl client (ctx.userData username password)

/-- `CheckAcl`, which does not look at the message. -/
def checkAcl (reader : Reader) (net : Network) (ctx : AuthPluginContext) (client : Bytes)
    (access : Int32) (topic : Bytes) : Except Exception AuthPluginError :=
  check reader net ctx.checkaclUrl client (ctx.aclData access topic)

end AuthPluginContext

/-! ## What a check returns -/

namespace AuthPluginContext

variable {reader : Reader} {net : Network} {url client content : Bytes}
  {data : Bytes → Except Exception JsonDocument} {d : JsonDocument}

theorem checkReply_of_root {resp : JsonDocument} (hroot : resp.root.isNullOrObject = true) :
    checkReply resp =
      .ok (if (resp.root.member? (bytes "code")).bind Value.int? = some 0 then .noError
        else .failed) := by
  rw [checkReply, JsonDocument.getInt, JsonDocument.getAs_of_key (by decide) hroot]
  rfl

theorem checkReply_isOk_iff {resp : JsonDocument} :
    (checkReply resp).isOk ↔ resp.root.isNullOrObject = true := by
  cases hroot : resp.root.isNullOrObject with
  | false =>
    refine iff_of_false ?_ Bool.false_ne_true
    exact JsonDocument.getAs_bind_of_not hroot _
  | true =>
    rw [checkReply_of_root hroot]
    exact iff_of_true rfl rfl

/-- A new document has no code. -/
theorem checkReply_empty : checkReply {} = .ok .failed := checkReply_of_root rfl

theorem check_of_empty : check reader net [] client data = .ok .defer := rfl

theorem check_of_clusterClient (hurl : url ≠ [])
    (hclient : bytes "mosqcluster" <+: cString client) :
    check reader net url client data = .ok .noError := by
  rw [check, if_neg (by simpa using hurl), if_pos hclient]
  rfl

/-- Any other check asks the service. -/
theorem check_of_not_clusterClient (hurl : url ≠ [])
    (hclient : ¬ bytes "mosqcluster" <+: cString client) (hdata : data (cString client) = .ok d) :
    check reader net url client data =
      (wrapper net).ask reader net url d checkReply .failed := by
  rw [check, if_neg (by simpa using hurl), if_neg hclient, hdata]
  rfl

/-- A check returns without a URL, for a client of the cluster, and if a reply leaves a root with
fields. -/
theorem check_isOk_iff (hdata : data (cString client) = .ok d) :
    (check reader net url client data).isOk ↔
      url = [] ∨ bytes "mosqcluster" <+: cString client ∨
        ∀ content, (wrapper net).Replies net url d content →
          JsonDocument.LeavesFields reader content := by
  by_cases hurl : url = []
  · subst hurl
    exact iff_of_true rfl (.inl rfl)
  by_cases hclient : bytes "mosqcluster" <+: cString client
  · rw [check_of_clusterClient hurl hclient]
    exact iff_of_true rfl (.inr (.inl hclient))
  rw [or_iff_right hurl, or_iff_right hclient, check_of_not_clusterClient hurl hclient hdata]
  exact HttpWrapper.ask_isOk_iff rfl checkReply_empty fun _ => checkReply_isOk_iff

/-- The document of a check can be made. -/
theorem exists_userData_eq (ctx : AuthPluginContext) (username password clientid : Bytes) :
    ∃ d, ctx.userData username password clientid = .ok d := by
  apply Exists.intro
  rw [userData, JsonDocument.set_bind_of_key (by decide), JsonDocument.set_bind_of_key (by decide),
    JsonDocument.set_bind_of_key (by decide)]
  exact JsonDocument.set_of_key (by decide) _

theorem exists_aclData_eq (ctx : AuthPluginContext) (access : Int32) (topic clientid : Bytes) :
    ∃ d, ctx.aclData access topic clientid = .ok d := by
  apply Exists.intro
  rw [aclData, JsonDocument.set_bind_of_key (by decide), JsonDocument.set_bind_of_key (by decide),
    JsonDocument.set_bind_of_key (by decide)]
  exact JsonDocument.set_of_key (by decide) _

end AuthPluginContext

/-! ## The functions of the plugin -/

/-- The values of `mosq_err_t` that a check may return. -/
inductive MosqErr where
  | success
  | auth
  | aclDenied
  | pluginDefer
  deriving DecidableEq

/-- A `std::string` made from a C string. -/
def stdString : Option Bytes → Except Exception Bytes
  | some str => .ok (cString str)
  | none => .error .nullString

/-- The verdict that the broker is given. -/
def mosqErr (code : AuthPluginError) : MosqErr := if 0 ≤ code.value then .success else .aclDenied

/-- `mosquitto_auth_unpwd_check`. -/
def mosquittoAuthUnpwdCheck (reader : Reader) (net : Network) (ctx : AuthPluginContext)
    (client : Bytes) (username password : Option Bytes) : Except Exception MosqErr := do
  let username ← stdString username
  let password ← stdString password
  return mosqErr (← ctx.checkUser reader net client username password)

/-- `mosquitto_auth_acl_check`. -/
def mosquittoAuthAclCheck (reader : Reader) (net : Network) (ctx : AuthPluginContext)
    (client : Bytes) (access : Int32) (topic : Option Bytes) : Except Exception MosqErr := do
  let topic ← stdString topic
  return mosqErr (← ctx.checkAcl reader net client access topic)

end MosqCluster
