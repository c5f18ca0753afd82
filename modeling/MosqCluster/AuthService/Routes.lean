import MosqCluster.AuthService.ContextManager
import MosqCluster.Http.Request

/-!
# The routes of the auth service

`route_initialize.cpp`, `route_check_user.cpp` and `route_check_acl.cpp` of
`mosquitto_auth_service`. Each reads the body of the request as a JSON document, whether `Parse`
accepts it or not, looks up its fields, and asks the manager if it finds all of them. The content of
a response is kept as the document that is written.

## Main definitions

* `HttpResponse`;
* `RouteInitialize.process`, `RouteCheckUser.process` and `RouteCheckAcl.process`;
* `Answerable`: the bodies that a route gets through.

## Main results

* `RouteInitialize.process_isOk_iff`, `RouteCheckUser.process_isOk_iff` and
  `RouteCheckAcl.process_isOk_iff`: a route returns if and only if the body is answerable.
-/

namespace MosqCluster

open Json Http

/-- `HttpResponse`. -/
structure HttpResponse where
  statusCode : Int32 := 404
  headers : OrderedMap XString Bytes := []
  content : Option Value := none

namespace HttpResponse

/-- `SetStatus`. -/
def setStatus (resp : HttpResponse) (code : Int32) : HttpResponse :=
  { resp with statusCode := code }

/-- `SetHeader`. -/
def setHeader (resp : HttpResponse) (name value : Bytes) : HttpResponse :=
  { resp with headers := resp.headers.insert ⟨name⟩ value }

/-- `SetContent`. -/
def setContent (resp : HttpResponse) (doc : JsonDocument) : HttpResponse :=
  { resp with content := some doc.root }

/-- `HttpResponse::HttpResponse`. -/
def new : HttpResponse :=
  ((({} : HttpResponse).setHeader (bytes "Connection") (bytes "close")).setHeader
    (bytes "Content-Type") (bytes "text/plain")).setHeader (bytes "Server") (bytes "xauth/1.0")

end HttpResponse

/-- `MosqAuthRouteProc::Process`. -/
def MosqAuthRouteProc.process (resp : HttpResponse) : HttpResponse :=
  ((resp.setStatus 200).setHeader (bytes "Content-Type") (bytes "application/json")).setHeader
    (bytes "Server") (bytes "mosquitto_auth_service/1.0")

/-- The document that a route makes of the body of a request. -/
def bodyDocument (reader : Reader) (req : HttpRequest) : Except Exception JsonDocument :=
  JsonDocument.ofText reader (cString req.body)

/-- The answer of `RouteCheckUser` and `RouteCheckAcl`. -/
def answer (granted : Bool) (resp : HttpResponse) : Except Exception HttpResponse := do
  let doc : JsonDocument := {}
  let doc ← doc.set (bytes "code") (.int (if granted then 0 else -1))
  let doc ← doc.set (bytes "message") (.string (bytes (if granted then "success" else "failed")))
  return resp.setContent doc

/-- `RouteInitialize::Process`. -/
def RouteInitialize.process (reader : Reader) (mgr : MosquittoContextManager) (req : HttpRequest)
    (resp : HttpResponse) : Except Exception (MosquittoContextManager × HttpResponse) := do
  let resp := MosqAuthRouteProc.process resp
  let data ← bodyDocument reader req
  let some _ ← data.getString (bytes "action") | return (mgr, resp)
  let some node ← data.getString (bytes "node") | return (mgr, resp)
  let mgr ← mgr.initializeNode node
  let nodes ← mgr.nodeNames
  let doc : JsonDocument := {}
  let doc ← doc.set (bytes "code") (.int 0)
  let doc ← doc.set (bytes "message") (.string (bytes "success"))
  let doc ← doc.set (bytes "nodes") (.array (nodes.map .string))
  return (mgr, resp.setContent doc)

/-- The fields that `RouteCheckUser::Process` looks up, and its decision. -/
def RouteCheckUser.granted (mgr : MosquittoContextManager) (data : JsonDocument) :
    Except Exception Bool := do
  let some name ← data.getString (bytes "name") | return false
  let some clientid ← data.getString (bytes "clientid") | return false
  let some username ← data.getString (bytes "username") | return false
  let some password ← data.getString (bytes "password") | return false
  mgr.checkUser name clientid username password

/-- `RouteCheckUser::Process`. -/
def RouteCheckUser.process (reader : Reader) (mgr : MosquittoContextManager) (req : HttpRequest)
    (resp : HttpResponse) : Except Exception HttpResponse := do
  let resp := MosqAuthRouteProc.process resp
  let data ← bodyDocument reader req
  answer (← RouteCheckUser.granted mgr data) resp

/-- The fields that `RouteCheckAcl::Process` looks up, and its decision. -/
def RouteCheckAcl.granted (mgr : MosquittoContextManager) (data : JsonDocument) :
    Except Exception Bool := do
  let some name ← data.getString (bytes "name") | return false
  let some clientid ← data.getString (bytes "clientid") | return false
  let some access ← data.getInt (bytes "access") | return false
  let some topic ← data.getString (bytes "topic") | return false
  mgr.checkAcl name clientid access topic

/-- `RouteCheckAcl::Process`. -/
def RouteCheckAcl.process (reader : Reader) (mgr : MosquittoContextManager) (req : HttpRequest)
    (resp : HttpResponse) : Except Exception HttpResponse := do
  let resp := MosqAuthRouteProc.process resp
  let data ← bodyDocument reader req
  answer (← RouteCheckAcl.granted mgr data) resp

/-! ## The fields of a body -/

/-- A member of a root that is a string. -/
def stringField (root : Value) (key : Bytes) : Option Bytes := (root.member? key).bind Value.string?

variable {reader : Reader} {mgr : MosquittoContextManager} {req : HttpRequest} {resp : HttpResponse}
  {data : JsonDocument}

theorem getString_of_key {key : Bytes} (hdot : findFrom key 46 0 = none)
    (hroot : data.root.isNullOrObject = true) :
    data.getString key = .ok (stringField data.root key) :=
  JsonDocument.getAs_of_key hdot hroot

/-- What `RouteCheckUser` and `RouteCheckAcl` answer. -/
theorem answer_eq (granted : Bool) (resp : HttpResponse) :
    answer granted resp = .ok (resp.setContent ⟨.object
      [(bytes "code", .int (if granted then 0 else -1)),
        (bytes "message", .string (bytes (if granted then "success" else "failed")))]⟩) := by
  rw [answer, JsonDocument.set_bind_of_key (by decide), JsonDocument.set_bind_of_key (by decide)]
  rfl

/-- The fields with which a route asks the manager. -/
def RouteInitialize.asksManager (root : Value) : Bool :=
  (stringField root (bytes "action")).isSome && (stringField root (bytes "node")).isSome

def RouteCheckUser.asksManager (root : Value) : Bool :=
  (stringField root (bytes "name")).isSome && (stringField root (bytes "clientid")).isSome &&
    (stringField root (bytes "username")).isSome && (stringField root (bytes "password")).isSome

def RouteCheckAcl.asksManager (root : Value) : Bool :=
  (stringField root (bytes "name")).isSome && (stringField root (bytes "clientid")).isSome &&
    ((root.member? (bytes "access")).bind Value.int?).isSome &&
    (stringField root (bytes "topic")).isSome

/-- `RouteCheckUser` decides on the four fields, and refuses where one is missing. -/
theorem RouteCheckUser.granted_eq (hroot : data.root.isNullOrObject = true) :
    RouteCheckUser.granted mgr data =
      match stringField data.root (bytes "name"), stringField data.root (bytes "clientid"),
          stringField data.root (bytes "username"), stringField data.root (bytes "password") with
        | some name, some clientid, some username, some password =>
          mgr.checkUser name clientid username password
        | _, _, _, _ => .ok false := by
  rw [RouteCheckUser.granted, getString_of_key (by decide) hroot,
    getString_of_key (by decide) hroot, getString_of_key (by decide) hroot,
    getString_of_key (by decide) hroot]
  cases stringField data.root (bytes "name") with
  | none => rfl
  | some name =>
    cases stringField data.root (bytes "clientid") with
    | none => rfl
    | some clientid =>
      cases stringField data.root (bytes "username") with
      | none => rfl
      | some username =>
        cases stringField data.root (bytes "password") with
        | none => rfl
        | some password => rfl

/-- `RouteCheckAcl` asks about the four fields, and refuses where one is missing. -/
theorem RouteCheckAcl.granted_eq (hroot : data.root.isNullOrObject = true) :
    RouteCheckAcl.granted mgr data =
      match stringField data.root (bytes "name"), stringField data.root (bytes "clientid"),
          (data.root.member? (bytes "access")).bind Value.int?,
          stringField data.root (bytes "topic") with
        | some name, some clientid, some access, some topic =>
          mgr.checkAcl name clientid access topic
        | _, _, _, _ => .ok false := by
  rw [RouteCheckAcl.granted, getString_of_key (by decide) hroot,
    getString_of_key (by decide) hroot, getString_of_key (by decide) hroot, JsonDocument.getInt,
    JsonDocument.getAs_of_key (by decide) hroot]
  cases stringField data.root (bytes "name") with
  | none => rfl
  | some name =>
    cases stringField data.root (bytes "clientid") with
    | none => rfl
    | some clientid =>
      cases (data.root.member? (bytes "access")).bind Value.int? with
      | none => rfl
      | some access =>
        cases stringField data.root (bytes "topic") with
        | none => rfl
        | some topic => rfl

/-! ## When a route returns -/

/-- The reader gets through the body and leaves a root with fields; and if these are all that the
manager is asked with, `lock_` is `NULL`. -/
def Answerable (reader : Reader) (mgr : MosquittoContextManager) (req : HttpRequest)
    (asksManager : Value → Bool) : Prop :=
  ∃ data, bodyDocument reader req = .ok data ∧ data.root.isNullOrObject = true ∧
    (asksManager data.root = true → mgr.lock = 0)

/-- A route that looks into a document. -/
theorem bind_isOk_iff {α : Type} {asksManager : Value → Bool}
    {next : JsonDocument → Except Exception α}
    (hnext : ∀ data, (next data).isOk ↔ data.root.isNullOrObject = true ∧
      (asksManager data.root = true → mgr.lock = 0)) :
    (bodyDocument reader req >>= next).isOk ↔ Answerable reader mgr req asksManager := by
  cases hbody : bodyDocument reader req with
  | error e =>
    -- what the reader throws, nobody catches
    refine iff_of_false Bool.false_ne_true ?_
    rintro ⟨data, hdata, -⟩
    cases hbody.symm.trans hdata
  | ok data =>
    refine (hnext data).trans ⟨fun h => ⟨data, hbody, h⟩, ?_⟩
    rintro ⟨data', hdata, h⟩
    obtain rfl := Except.ok.inj (hbody.symm.trans hdata)
    exact h

/-- An answer is given if and only if there is a decision. -/
theorem answered_isOk_iff {granted : Except Exception Bool} :
    (granted >>= fun granted => answer granted resp).isOk ↔ granted.isOk := by
  cases granted with
  | error e => exact Iff.rfl
  | ok granted =>
    change (answer granted resp).isOk ↔ _
    rw [answer_eq]
    exact Iff.rfl

theorem RouteCheckUser.granted_isOk_iff :
    (RouteCheckUser.granted mgr data).isOk ↔ data.root.isNullOrObject = true ∧
      (RouteCheckUser.asksManager data.root = true → mgr.lock = 0) := by
  cases hroot : data.root.isNullOrObject with
  | false =>
    refine iff_of_false ?_ fun h => Bool.false_ne_true h.1
    exact JsonDocument.getAs_bind_of_not hroot _
  | true =>
    rw [granted_eq hroot, and_iff_right rfl, asksManager]
    split
    · next hname hclientid husername hpassword =>
      rw [hname, hclientid, husername, hpassword]
      exact MosquittoContextManager.checkUser_isOk_iff.trans ⟨fun hlock _ => hlock, fun h => h rfl⟩
    · next hmissing =>
      -- the manager is not asked, and whatever its lock is does not matter
      refine iff_of_true rfl fun h => ?_
      simp only [Bool.and_eq_true, Option.isSome_iff_exists] at h
      obtain ⟨⟨⟨⟨name, hname⟩, clientid, hclientid⟩, username, husername⟩, password, hpassword⟩ := h
      exact absurd hpassword (hmissing name clientid username password hname hclientid husername)

theorem RouteCheckAcl.granted_isOk_iff :
    (RouteCheckAcl.granted mgr data).isOk ↔ data.root.isNullOrObject = true ∧
      (RouteCheckAcl.asksManager data.root = true → mgr.lock = 0) := by
  cases hroot : data.root.isNullOrObject with
  | false =>
    refine iff_of_false ?_ fun h => Bool.false_ne_true h.1
    exact JsonDocument.getAs_bind_of_not hroot _
  | true =>
    rw [granted_eq hroot, and_iff_right rfl, asksManager]
    split
    · next hname hclientid haccess htopic =>
      rw [hname, hclientid, haccess, htopic]
      exact MosquittoContextManager.checkAcl_isOk_iff.trans ⟨fun hlock _ => hlock, fun h => h rfl⟩
    · next hmissing =>
      refine iff_of_true rfl fun h => ?_
      simp only [Bool.and_eq_true, Option.isSome_iff_exists] at h
      obtain ⟨⟨⟨⟨name, hname⟩, clientid, hclientid⟩, access, haccess⟩, topic, htopic⟩ := h
      exact absurd htopic (hmissing name clientid access topic hname hclientid haccess)

theorem RouteCheckUser.process_isOk_iff :
    (RouteCheckUser.process reader mgr req resp).isOk ↔
      Answerable reader mgr req RouteCheckUser.asksManager :=
  bind_isOk_iff fun _ => answered_isOk_iff.trans granted_isOk_iff

theorem RouteCheckAcl.process_isOk_iff :
    (RouteCheckAcl.process reader mgr req resp).isOk ↔
      Answerable reader mgr req RouteCheckAcl.asksManager :=
  bind_isOk_iff fun _ => answered_isOk_iff.trans granted_isOk_iff

theorem RouteInitialize.process_isOk_iff :
    (RouteInitialize.process reader mgr req resp).isOk ↔
      Answerable reader mgr req RouteInitialize.asksManager := by
  refine bind_isOk_iff fun data => ?_
  cases hroot : data.root.isNullOrObject with
  | false =>
    refine iff_of_false ?_ fun h => Bool.false_ne_true h.1
    exact JsonDocument.getAs_bind_of_not hroot _
  | true =>
    rw [getString_of_key (by decide) hroot, getString_of_key (by decide) hroot,
      and_iff_right rfl, asksManager]
    cases stringField data.root (bytes "action") with
    | none => exact iff_of_true rfl fun h => by cases h
    | some action =>
      cases stringField data.root (bytes "node") with
      | none => exact iff_of_true rfl fun h => by cases h
      | some node =>
        by_cases hlock : mgr.lock = 0
        · -- The node is put in the list, and the answer is written.
          refine iff_of_true ?_ fun _ => hlock
          change (mgr.initializeNode node >>= _).isOk
          rw [MosquittoContextManager.initializeNode_eq hlock]
          change ((mgr.register node).nodeNames >>= _).isOk
          rw [MosquittoContextManager.nodeNames_eq (by rwa [mgr.lock_register])]
          change ((JsonDocument.set _ _ _) >>= _).isOk
          rw [JsonDocument.set_bind_of_key (by decide), JsonDocument.set_bind_of_key (by decide),
            JsonDocument.set_bind_of_key (by decide)]
          rfl
        · refine iff_of_false ?_ fun h => hlock (h rfl)
          change ¬ (mgr.initializeNode node >>= _).isOk
          rw [MosquittoContextManager.initializeNode_eq_error hlock]
          exact Bool.false_ne_true

end MosqCluster
